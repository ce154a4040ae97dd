import Nvbmc.RunQueue.SceneOverlap

/-!
# No task runs on top of a skipped dependency

A task that is skipped as covered stays skippable: every setscene task that
could need it is covered for good.  So a task that is not covered, and is
therefore started, only finds dependencies that ran or were provided.  The
argument fails where `task_completeoutright` revives a setscene task that has
failed before.
-/

namespace Nvbmc.RunQueue

open Nvbmc.Library

variable {Tid : Type} [LinearOrder Tid]

namespace Event

/-- A real task is started or skipped. -/
def Launches : Event Tid → Prop
  | .taskStarted _ _ => True
  | .taskSkipped _ _ => True
  | _ => False

end Event

/-- Events are added that start and skip no real task. -/
inductive QuietGrowth (before : List (Event Tid)) :
    List (Event Tid) → Prop where
  | refl : QuietGrowth before before
  | fire {after : List (Event Tid)} {event : Event Tid} :
      QuietGrowth before after → ¬ event.Launches →
      QuietGrowth before (event :: after)

namespace QuietGrowth

variable {before after : List (Event Tid)} {event : Event Tid}

omit [LinearOrder Tid]

theorem subset (growth : QuietGrowth before after) : before ⊆ after := by
  induction growth with
  | refl => exact fun _ => id
  | fire _ _ induction =>
      exact fun _ member => List.mem_cons_of_mem _ (induction member)

theorem mem_of_launches (growth : QuietGrowth before after)
    (launches : event.Launches) (member : event ∈ after) :
    event ∈ before := by
  induction growth with
  | refl => exact member
  | fire _ quiet induction =>
      rcases List.mem_cons.mp member with rfl | member
      · exact absurd launches quiet
      · exact induction member

end QuietGrowth

namespace Prepared

variable (rq : Prepared Tid)

/-- A dependency ran, was found stamp-current or was provided by its setscene
variant. -/
def Provided (events : List (Event Tid)) (dep : Tid) : Prop :=
  ((∃ noexec, .taskStarted dep noexec ∈ events) ∧
      .taskCompleted dep ∈ events) ∨
    .taskSkipped dep .existing ∈ events ∨
    (dep ∈ rq.runqSetsceneTids ∧ SceneProvided events dep)

def StartsProvided : List (Event Tid) → Prop
  | [] => True
  | .taskStarted task _ :: earlier =>
      (∀ dep ∈ rq.depends task, rq.Provided earlier dep) ∧
        StartsProvided earlier
  | _ :: earlier => StartsProvided earlier

variable {rq} in
theorem Provided.mono {events later : List (Event Tid)} {dep : Tid}
    (provided : rq.Provided events dep) (grown : events ⊆ later) :
    rq.Provided later dep := by
  rcases provided with ⟨⟨noexec, started⟩, completed⟩ | skipped |
    ⟨scene, provided⟩
  · exact .inl ⟨⟨noexec, grown started⟩, grown completed⟩
  · exact .inr (.inl (grown skipped))
  · exact .inr (.inr ⟨scene, provided.mono grown⟩)

variable {rq} in
theorem StartsProvided.quiet {before after : List (Event Tid)}
    (provided : rq.StartsProvided before) (growth : QuietGrowth before after) :
    rq.StartsProvided after := by
  induction growth with
  | refl => exact provided
  | @fire _ event _ quiet induction =>
      cases event <;> first | exact induction | exact absurd trivial quiet

theorem startsProvided_iff (events : List (Event Tid)) :
    rq.StartsProvided events ↔ ∀ later earlier task noexec,
      events = later ++ .taskStarted task noexec :: earlier →
      ∀ dep ∈ rq.depends task, rq.Provided earlier dep := by
  induction events with
  | nil => simp [StartsProvided]
  | cons event events induction =>
      constructor
      · intro provided later earlier task noexec split
        cases later with
        | nil =>
            obtain ⟨rfl, rfl⟩ := List.cons.inj split
            exact provided.1
        | cons head later =>
            obtain ⟨rfl, rest⟩ := List.cons.inj split
            refine induction.mp ?_ later earlier task noexec rest
            cases event <;> first | exact provided | exact provided.2
      · intro provided
        have earlier : rq.StartsProvided events :=
          induction.mpr fun later earlier task noexec rest =>
            provided (event :: later) earlier task noexec
              (by rw [rest, List.cons_append])
        cases event with
        | taskStarted task noexec =>
            exact ⟨provided [] events task noexec rfl, earlier⟩
        | _ => exact earlier

/-- A task that may be skipped for good. -/
structure Skippable (s : RunQueueExecute Tid) (tid : Tid) : Prop where
  unskippable : rq.Unskippable tid → tid ∈ rq.runqSetsceneTids
  scene : tid ∈ rq.runqSetsceneTids → tid ∈ s.scenequeueCovered
  covered : ∀ source ∈ rq.runqSetsceneTids,
    tid ∈ rq.sqdata.sqCoveredTasks source → source ∈ s.scenequeueCovered

theorem unskippable_of_cantskip {tid : Tid}
    (cantskip : tid ∈ rq.sqdata.cantskip) :
    rq.Unskippable tid ∧ tid ∉ rq.runqSetsceneTids := by
  rw [sqdata, rq.builtFrom.cantskip] at cantskip
  constructor
  · exact .start (List.mem_union_iff.mpr (.inr cantskip))
  · simp only [RunQueueData.cantskip, List.mem_filter,
      decide_eq_true_eq] at cantskip
    exact cantskip.2.1

theorem mem_rawNotcovered {s : RunQueueExecute Tid} {tid : Tid} :
    tid ∈ rq.rawNotcovered s ↔ tid ∈ s.scenequeueNotcovered ∨
      (∃ source ∈ s.scenequeueNotcovered,
        tid ∈ rq.sqdata.sqCoveredTasks source) ∨
      rq.Unskippable tid ∧ tid ∉ rq.runqSetsceneTids := by
  simp only [rawNotcovered, List.mem_append, List.mem_flatMap,
    List.mem_filter, decide_eq_true_eq, rq.mem_unskippable]
  constructor
  · rintro (((failed | cantskip) | covered) | unskippable)
    · exact .inl failed
    · exact .inr (.inr (rq.unskippable_of_cantskip cantskip))
    · exact .inr (.inl covered)
    · exact .inr (.inr unskippable)
  · rintro (failed | covered | unskippable)
    · exact .inl (.inl (.inl failed))
    · exact .inl (.inr covered)
    · exact .inr unskippable

variable {rq} {s s' : RunQueueExecute Tid} {task tid dep : Tid}

/-- The dependencies of a task that is not covered are unskippable, or below a
setscene task that is not covered. -/
theorem dep_of_rawNotcovered (decisions : rq.Decisions s)
    (uncovered : task ∈ rq.rawNotcovered s) (edge : dep ∈ rq.depends task) :
    (∃ source ∈ s.scenequeueNotcovered, rq.Source source dep) ∨
      rq.Unskippable dep := by
  rcases rq.mem_rawNotcovered.mp uncovered with failed | ⟨source, failed,
    covered⟩ | ⟨unskippable, normal⟩
  · exact .inl ⟨task, failed, decisions.scene (.inr failed), .single edge⟩
  · obtain ⟨normal, reached⟩ :=
      (rq.mem_sqCoveredTasks (decisions.scene (.inr failed))).mp covered
    exact .inl ⟨source, failed, reached.step normal edge⟩
  · exact .inr (.step unskippable normal edge)

theorem Skippable.not_rawNotcovered (skippable : rq.Skippable s tid)
    (decisions : rq.Decisions s) : tid ∉ rq.rawNotcovered s := by
  intro uncovered
  rcases rq.mem_rawNotcovered.mp uncovered with failed | ⟨source, failed,
    covered⟩ | ⟨unskippable, normal⟩
  · have scene := decisions.scene (.inr failed)
    exact decisions.once (skippable.scene scene) failed
  · have scene := decisions.scene (.inr failed)
    exact decisions.once (skippable.covered source scene covered) failed
  · exact normal (skippable.unskippable unskippable)

/-- A skipped dependency of a task that is not covered was provided by its
setscene variant. -/
theorem Skippable.provided (skippable : rq.Skippable s dep)
    (decisions : rq.Decisions s)
    (uncovered : task ∈ rq.rawNotcovered s) (edge : dep ∈ rq.depends task) :
    dep ∈ rq.runqSetsceneTids ∧ SceneProvided s.events dep := by
  have below := dep_of_rawNotcovered decisions uncovered edge
  by_cases scene : dep ∈ rq.runqSetsceneTids
  · refine ⟨scene, ?_⟩
    rcases decisions.reason (skippable.scene scene) with
      provided | ⟨skipped, needed⟩
    · exact provided
    · rcases below with ⟨source, failed, reached⟩ | unskippable
      · have needs := (rq.builtFrom.sqRevdeps scene source).mpr reached
        exact absurd failed (decisions.once (needed needs))
      · exact absurd (rq.mem_unskippable.mpr unskippable) skipped
  · rcases below with ⟨source, failed, reached⟩ | unskippable
    · have covers := (rq.mem_sqCoveredTasks reached.1).mpr ⟨scene, reached⟩
      have covered := skippable.covered source reached.1 covers
      exact absurd failed (decisions.once covered)
    · exact absurd (skippable.unskippable unskippable) scene

variable (rq) in
/-- The invariant of the real tasks in a run without hash migrations. -/
structure RealTasks (s : RunQueueExecute Tid) : Prop where
  running : s.runqComplete ⊆ s.runqRunning
  completed : ∀ {tid}, tid ∈ s.runqComplete →
    rq.Provided s.events tid ∨ .taskSkipped tid .covered ∈ s.events
  schedBuildable : ∀ {tid}, tid ∈ s.schedBuildable →
    tid ∈ s.runqRunning ∨ rq.depends tid ⊆ s.runqComplete
  holdoffTasks : s.holdoffNeedUpdate = false →
    ∀ source ∈ rq.runqSetsceneTids, ¬ s.Decided source →
      source ∈ s.holdoffTasks ∧
        ∀ tid ∈ rq.sqdata.sqCoveredTasks source,
          tid ∈ s.runqComplete ∨ tid ∈ s.holdoffTasks
  tasksCovered : s.holdoffNeedUpdate = false → ∀ tid ∈ s.tasksCovered,
    tid ∉ rq.rawNotcovered s ∧
      (tid ∈ rq.runqSetsceneTids → tid ∈ s.scenequeueCovered)
  tasksNotcovered : s.tasksNotcovered ⊆ rq.rawNotcovered s
  skipped : ∀ {tid}, .taskSkipped tid .covered ∈ s.events →
    rq.Skippable s tid
  started : rq.StartsProvided s.events

/-- A step that leaves the real tasks alone. -/
structure Aside (s s' : RunQueueExecute Tid) : Prop where
  runqRunning : s'.runqRunning = s.runqRunning
  runqComplete : s'.runqComplete = s.runqComplete
  schedBuildable : s'.schedBuildable ⊆ s.schedBuildable
  holdoffTasks : s'.holdoffTasks = s.holdoffTasks
  tasksCovered : s'.tasksCovered = s.tasksCovered
  tasksNotcovered : s'.tasksNotcovered = s.tasksNotcovered
  events : QuietGrowth s.events s'.events

/-- Decisions are only added, and then the derived sets are stale. -/
structure Grown (s s' : RunQueueExecute Tid) : Prop where
  covered : s.scenequeueCovered ⊆ s'.scenequeueCovered
  notcovered : s.scenequeueNotcovered ⊆ s'.scenequeueNotcovered
  fresh : s'.holdoffNeedUpdate = false → s.holdoffNeedUpdate = false ∧
    s'.scenequeueCovered = s.scenequeueCovered ∧
    s'.scenequeueNotcovered = s.scenequeueNotcovered

omit [LinearOrder Tid] in
theorem Aside.refl (s : RunQueueExecute Tid) : Aside s s where
  runqRunning := rfl
  runqComplete := rfl
  schedBuildable := fun _ => id
  holdoffTasks := rfl
  tasksCovered := rfl
  tasksNotcovered := rfl
  events := .refl

theorem Grown.rawNotcovered (grown : Grown s s') :
    rq.rawNotcovered s ⊆ rq.rawNotcovered s' := by
  intro tid member
  rw [mem_rawNotcovered] at member ⊢
  exact member.imp (fun failed => grown.notcovered failed)
    (Or.imp_left fun ⟨source, failed, covered⟩ =>
      ⟨source, grown.notcovered failed, covered⟩)

theorem Skippable.grown (skippable : rq.Skippable s tid)
    (grown : s.scenequeueCovered ⊆ s'.scenequeueCovered) :
    rq.Skippable s' tid where
  unskippable := skippable.unskippable
  scene := fun scene => grown (skippable.scene scene)
  covered := fun source scene covered =>
    grown (skippable.covered source scene covered)

theorem RealTasks.aside (real : rq.RealTasks s) (aside : Aside s s')
    (grown : Grown s s') : rq.RealTasks s' := by
  have subset := aside.events.subset
  constructor
  · rw [aside.runqComplete, aside.runqRunning]
    exact real.running
  · intro tid complete
    rw [aside.runqComplete] at complete
    exact (real.completed complete).imp
      (fun provided => provided.mono subset) fun skipped => subset skipped
  · intro tid buildable
    rw [aside.runqRunning, aside.runqComplete]
    exact real.schedBuildable (aside.schedBuildable buildable)
  · intro fresh
    obtain ⟨fresh, covered, notcovered⟩ := grown.fresh fresh
    simp only [RunQueueExecute.Decided, covered, notcovered,
      aside.holdoffTasks, aside.runqComplete]
    exact real.holdoffTasks fresh
  · intro fresh
    obtain ⟨fresh, covered, notcovered⟩ := grown.fresh fresh
    simp only [rawNotcovered, covered, notcovered, aside.tasksCovered]
    exact real.tasksCovered fresh
  · rw [aside.tasksNotcovered]
    exact fun tid member => grown.rawNotcovered (real.tasksNotcovered member)
  · intro tid skipped
    have launches : Event.Launches (.taskSkipped tid .covered) := trivial
    have before := aside.events.mem_of_launches launches skipped
    exact (real.skipped before).grown grown.covered
  · exact real.started.quiet aside.events

/-- The workers run the live setscene tasks and real tasks that were
started. -/
def Sent (s : RunQueueExecute Tid) : Prop :=
  ∃ real, s.workers.Perm (s.sqLive ++ real) ∧
    ∀ tid ∈ real, tid ∈ s.runqRunning ∧ .taskStarted tid false ∈ s.events

variable (rq) in
/-- Everything that holds between two steps. -/
structure Safe (s : RunQueueExecute Tid) : Prop where
  decisions : rq.Decisions s
  real : rq.RealTasks s
  sent : Sent s

namespace Safe

variable (safe : rq.Safe s)
include safe

theorem quiet (kept : Kept s s') (aside : Aside s s')
    (workers : s'.workers = s.workers)
    (holdoff : s'.holdoffNeedUpdate = s.holdoffNeedUpdate) : rq.Safe s' := by
  constructor
  · exact safe.decisions.kept kept
  · refine safe.real.aside aside ⟨?_, ?_, fun fresh => ⟨?_, ?_, ?_⟩⟩
    · rw [kept.scenequeueCovered]
      exact fun _ => id
    · rw [kept.scenequeueNotcovered]
      exact fun _ => id
    · exact holdoff ▸ fresh
    · exact kept.scenequeueCovered
    · exact kept.scenequeueNotcovered
  · obtain ⟨real, sent, started⟩ := safe.sent
    rw [← aside.runqRunning] at started
    refine ⟨real, ?_, fun tid member =>
      (started tid member).imp_right fun started => kept.events started⟩
    rw [workers, kept.sqLive]
    exact sent

/-- Decisions are added, and the workers still run the same real tasks. -/
theorem settled (decisions : rq.Decisions s') (aside : Aside s s')
    (covered : s.scenequeueCovered ⊆ s'.scenequeueCovered)
    (notcovered : s.scenequeueNotcovered ⊆ s'.scenequeueNotcovered)
    (stale : s'.holdoffNeedUpdate = true)
    (workers : ∀ real, s.workers.Perm (s.sqLive ++ real) →
      s'.workers.Perm (s'.sqLive ++ real)) : rq.Safe s' := by
  constructor
  · exact decisions
  · refine safe.real.aside aside ⟨covered, notcovered, fun fresh => ?_⟩
    simp [stale] at fresh
  · obtain ⟨real, sent, started⟩ := safe.sent
    rw [← aside.runqRunning] at started
    exact ⟨real, workers real sent, fun tid member =>
      (started tid member).imp_right fun started =>
        aside.events.subset started⟩

theorem decided (decisions : rq.Decisions s') (aside : Aside s s')
    (workers : s'.workers = s.workers) (sqLive : s'.sqLive = s.sqLive)
    (covered : s.scenequeueCovered ⊆ s'.scenequeueCovered)
    (notcovered : s.scenequeueNotcovered ⊆ s'.scenequeueNotcovered)
    (stale : s'.holdoffNeedUpdate = true) : rq.Safe s' := by
  apply safe.settled decisions aside covered notcovered stale
  intro real sent
  rw [workers, sqLive]
  exact sent

theorem sqTaskSkip {reason : SceneSkipReason}
    (scene : task ∈ rq.runqSetsceneTids) (idle : task ∉ s.sqLive)
    (unfailed : task ∉ s.scenequeueNotcovered)
    (needed : reason ≠ .notNeeded ∨ rq.Dispensable s.scenequeueCovered task) :
    rq.Safe (rq.sqTaskSkip task reason s) := by
  have decisions := safe.decisions.sqTaskSkip scene idle unfailed needed
  refine safe.decided decisions ?_ rfl rfl ?_ (fun _ => id) rfl
  · exact { Aside.refl s with events := .fire .refl (fun launches => launches) }
  · exact fun tid member => List.mem_insert_of_mem member

theorem sqTaskFailoutright (scene : task ∈ rq.runqSetsceneTids)
    (idle : task ∉ s.sqRunning) : rq.Safe (rq.sqTaskFailoutright task s) := by
  obtain ⟨passed, -, stale⟩ := rq.updatecounters_passed task true
    (markFailoutright task s)
  have decisions := safe.decisions.sqTaskFailoutright scene idle
  refine safe.decided decisions ?_ passed.workers passed.sqLive ?_ ?_ stale
  · constructor
    · exact passed.runqRunning
    · exact passed.runqComplete
    · rw [Prepared.sqTaskFailoutright, passed.schedBuildable]
      exact fun _ => id
    · exact passed.holdoffTasks
    · exact passed.tasksCovered
    · exact passed.tasksNotcovered
    · rw [Prepared.sqTaskFailoutright, passed.events]
      exact .refl
  · rw [Prepared.sqTaskFailoutright, passed.scenequeueCovered]
    exact fun _ => id
  · exact fun tid member =>
      passed.scenequeueNotcovered (List.mem_insert_of_mem member)

theorem rechecked (rechecked : Rechecked s s') : rq.Safe s' := by
  obtain ⟨_, _, _, _, _, _, _, rfl⟩ := rechecked
  exact safe.quiet { Kept.refl s with } { Aside.refl s with } rfl rfl

theorem browsed (browsed : Browsed s s') : rq.Safe s' := by
  obtain ⟨_, _, _, _, _, rfl⟩ := browsed
  exact safe.quiet { Kept.refl s with } { Aside.refl s with } rfl rfl

theorem setbuildable
    (ready : tid ∈ s.runqRunning ∨ rq.depends tid ⊆ s.runqComplete) :
    rq.Safe (s.setbuildable tid) := by
  constructor
  · exact safe.decisions.kept { Kept.refl s with }
  · refine { safe.real with
      schedBuildable := ?_
      skipped := fun skipped => (safe.real.skipped skipped).grown
        fun _ => id }
    intro other buildable
    rcases List.mem_insert_iff.mp buildable with rfl | old
    · exact ready
    · exact safe.real.schedBuildable old
  · exact safe.sent

end Safe

def firstDeferred (task : Tid) (s : RunQueueExecute Tid) : Option Tid :=
  (sorted s.sqDeferred.keys).find? (s.sqDeferred.get? · = some task)

variable (rq)

/-- Completing `task` outright revives a setscene task: the first task deferred
behind it has failed, and a stamp is found for it nevertheless. -/
def revives (task : Tid) (s : RunQueueExecute Tid) : Bool :=
  (firstDeferred task s).any fun deferred =>
    deferred ∈ s.scenequeueNotcovered ∧ rq.stampFound s deferred

theorem revives_congr (task : Tid) (sqDeferred : s'.sqDeferred = s.sqDeferred)
    (notcovered : s'.scenequeueNotcovered = s.scenequeueNotcovered)
    (consults : s'.consults = s.consults)
    (stampcache : s'.stampcache = s.stampcache)
    (stampfileHash : s'.stampfileHash = s.stampfileHash) :
    rq.revives task s' = rq.revives task s := by
  have found : rq.stampFound s' = rq.stampFound s :=
    funext fun tid => rq.stampFound_congr tid consults stampcache stampfileHash
  simp only [revives, firstDeferred, sqDeferred, notcovered, found]

variable {rq}

namespace Safe

variable (safe : rq.Safe s)
include safe

private theorem deferAgain (found : Tid) (tids : List Tid) :
    rq.Safe (tids.foldl (rq.releaseDeferred task) (s, some found)).1 := by
  induction tids generalizing s with
  | nil => exact safe
  | cons tid tids induction =>
      rw [List.foldl_cons, releaseDeferred]
      split_ifs with waiting
      · refine induction (safe.quiet ?_ { Aside.refl s with } rfl rfl)
        refine { Kept.refl s with sqDeferred := fun other member => ?_ }
        rcases (Dict.mem_keys_set _ _ _ _).mp member with rfl | old
        · exact Dict.mem_keys_of_get? waiting
        · exact old
      · exact induction safe

private theorem checkAgain (waiting : tid ∈ s.sqDeferred.keys)
    (unrevived : tid ∈ s.scenequeueNotcovered → rq.stampFound s tid = false) :
    rq.Safe (rq.updateScenequeueData [tid]
      { s with sqDeferred := s.sqDeferred.del tid }) := by
  obtain ⟨scene, idle⟩ := safe.decisions.deferred waiting
  have left : rq.Safe { s with sqDeferred := s.sqDeferred.del tid } := by
    refine safe.quiet ?_ { Aside.refl s with } rfl rfl
    exact { Kept.refl s with
      sqDeferred := fun _ member =>
        ((Dict.mem_keys_del _ _ _).mp member).2 }
  rcases rq.updateScenequeueData_single tid
      { s with sqDeferred := s.sqDeferred.del tid } with
    rechecked | ⟨checked, reason, rechecked, needed, found, after⟩
  · exact left.rechecked rechecked
  · have unfailed : tid ∉ s.scenequeueNotcovered := by
      intro failed
      have same : rq.stampFound
          { s with sqDeferred := s.sqDeferred.del tid } tid =
            rq.stampFound s tid := rq.stampFound_congr tid rfl rfl rfl
      rw [same, unrevived failed] at found
      cases found
    have skipped : rq.Safe (rq.sqTaskSkip tid reason checked) := by
      have safe := left.rechecked rechecked
      obtain ⟨_, _, _, _, _, _, _, rfl⟩ := rechecked
      exact safe.sqTaskSkip scene idle unfailed (.inl needed)
    exact skipped.rechecked after

private theorem release (tids : List Tid)
    (unrevived : ∀ tid ∈ tids.find? (s.sqDeferred.get? · = some task),
      tid ∈ s.scenequeueNotcovered → rq.stampFound s tid = false) :
    rq.Safe (tids.foldl (rq.releaseDeferred task) (s, none)).1 := by
  induction tids with
  | nil => exact safe
  | cons tid tids induction =>
      rw [List.foldl_cons, releaseDeferred]
      split_ifs with waiting
      · refine deferAgain (safe.checkAgain (Dict.mem_keys_of_get? waiting) ?_)
          tid tids
        exact unrevived tid (by simp [waiting])
      · refine induction fun other first => unrevived other ?_
        simpa [List.find?_cons, waiting] using first

theorem taskCompleteoutright (running : task ∈ s.runqRunning)
    (completed : rq.Provided s.events task ∨
      .taskSkipped task .covered ∈ s.events) (unrevived :
        rq.revives task s = false) :
    rq.Safe (rq.taskCompleteoutright task s) := by
  have grown : s.runqComplete ⊆ s.runqComplete.insert task :=
    fun _ member => List.mem_insert_of_mem member
  have marked : rq.Safe
      { s with runqComplete := s.runqComplete.insert task } := by
    constructor
    · exact safe.decisions.kept { Kept.refl s with }
    · refine { safe.real with
        running := ?_, completed := ?_, schedBuildable := ?_
        holdoffTasks := ?_
        skipped := fun skipped => (safe.real.skipped skipped).grown
          fun _ => id }
      · intro tid member
        rcases List.mem_insert_iff.mp member with rfl | old
        · exact running
        · exact safe.real.running old
      · intro tid member
        rcases List.mem_insert_iff.mp member with rfl | old
        · exact completed
        · exact safe.real.completed old
      · exact fun buildable => (safe.real.schedBuildable buildable).imp_right
          fun ready _ member => grown (ready member)
      · intro fresh source scene undecided
        obtain ⟨held, below⟩ :=
          safe.real.holdoffTasks fresh source scene undecided
        exact ⟨held, fun tid covered =>
          (below tid covered).imp_left fun complete => grown complete⟩
    · exact safe.sent
  have visited : ∀ tids : List Tid, rq.Safe (tids.foldl rq.setbuildableRevdep
      { s with runqComplete := s.runqComplete.insert task }) := by
    intro tids
    refine List.foldlRecOn (motive := rq.Safe) _ _ marked
      fun before safe revdep _ => ?_
    unfold setbuildableRevdep
    split_ifs with seen ready
    · exact safe
    · exact safe.setbuildable (.inr ready)
    · exact safe
  have buildable := visited (rq.revdeps task)
  obtain ⟨_, _, same⟩ := foldl_setbuildable rq.setbuildableRevdep_each
    (rq.revdeps task)
    { s with runqComplete := s.runqComplete.insert task }
  simp only [Prepared.taskCompleteoutright, same] at buildable ⊢
  refine buildable.release _ fun tid first failed => ?_
  have first : firstDeferred task s = some tid := first
  have unfound : rq.stampFound s tid = false := by
    simpa [revives, first, failed] using unrevived
  rw [← unfound]
  exact rq.stampFound_congr tid rfl rfl rfl

theorem updateHoldofftasks : rq.Safe (rq.updateHoldofftasks s) := by
  by_cases stale : s.holdoffNeedUpdate = true
  · have buildable : rq.Safe ((rq.notcovered s ++ rq.covered s).foldl
        rq.setbuildableReady s) := by
      refine List.foldlRecOn (motive := rq.Safe) _ _ safe
        fun before safe tid _ => ?_
      unfold setbuildableReady
      split_ifs with ready
      · exact safe.setbuildable (.inr ready)
      · exact safe
    obtain ⟨_, _, same⟩ := foldl_setbuildable rq.setbuildableReady_each
      (rq.notcovered s ++ rq.covered s) s
    rw [Prepared.updateHoldofftasks, if_pos stale]
    rw [same] at buildable ⊢
    constructor
    · exact safe.decisions.kept { Kept.refl s with }
    · refine { buildable.real with
        holdoffTasks := fun _ source scene undecided => ⟨?_, ?_⟩
        tasksCovered := fun _ tid covered => ⟨fun uncovered => ?_, ?_⟩
        tasksNotcovered := List.filter_subset_self _
        skipped := fun skipped => (buildable.real.skipped skipped).grown
          fun _ => id }
      · refine List.mem_append_left _ (List.mem_filter.mpr ⟨scene, ?_⟩)
        exact decide_eq_true undecided
      · intro tid covered
        rw [or_iff_not_imp_left]
        intro incomplete
        refine List.mem_append_right _ (List.mem_filter.mpr ⟨?_, ?_⟩)
        · exact List.mem_flatMap.mpr ⟨source, List.mem_filter.mpr
            ⟨scene, decide_eq_true undecided⟩, covered⟩
        · exact decide_eq_true incomplete
      · have outside := (List.mem_filter.mp covered).2
        simp only [decide_eq_true_eq] at outside
        exact outside.1
          (List.mem_filter.mpr ⟨uncovered, decide_eq_true outside.2⟩)
      · intro scene
        rcases List.mem_append.mp (List.mem_filter.mp covered).1 with
          decided | below
        · exact decided
        · obtain ⟨source, decided, covered⟩ := List.mem_flatMap.mp below
          have source := safe.decisions.scene (.inl decided)
          exact absurd scene ((rq.mem_sqCoveredTasks source).mp covered).1
    · exact safe.sent
  · rw [Prepared.updateHoldofftasks, if_neg stale]
    exact safe

theorem sceneStarted {checked : RunQueueExecute Tid}
    (rechecked : Rechecked (s.fire (.sceneTaskStarted task)) checked)
    (scene : task ∈ rq.runqSetsceneTids) (idle : task ∉ s.sqRunning)
    (waitless : task ∉ s.sqDeferred.keys)
    (hard : ∀ hard ∈ rq.sqdata.sqHarddepsRev task, s.Decided hard) :
    rq.Safe (rq.sceneStarted task checked) := by
  obtain ⟨_, _, _, _, _, _, _, rfl⟩ := rechecked
  have dead : task ∉ s.sqLive :=
    fun live => idle (safe.decisions.live live).sqRunning
  have subset : s.events ⊆ .sceneTaskStarted task :: s.events :=
    List.subset_cons_self _ _
  constructor
  · refine
      { updatedTaskhashQueue := safe.decisions.updatedTaskhashQueue
        pendingMigrations := safe.decisions.pendingMigrations
        scene := safe.decisions.scene
        sqRunning := fun decided =>
          List.mem_insert_of_mem (safe.decisions.sqRunning decided)
        live := ?_
        nodup := List.Nodup.insert safe.decisions.nodup
        deferred := ?_
        once := safe.decisions.once
        reason := fun covered => (safe.decisions.reason covered).imp_left
          fun provided => provided.mono subset }
    · intro tid member
      rcases List.mem_insert_iff.mp member with rfl | old
      · exact
          { scene := scene
            sqRunning := List.mem_insert_self
            undecided := fun decided =>
              idle (safe.decisions.sqRunning decided)
            hard := hard }
      · have live := safe.decisions.live old
        exact
          { scene := live.scene
            sqRunning := List.mem_insert_of_mem live.sqRunning
            undecided := live.undecided
            hard := live.hard }
    · intro tid waiting
      refine ⟨(safe.decisions.deferred waiting).1, fun live => ?_⟩
      rcases List.mem_insert_iff.mp live with rfl | old
      · exact waitless waiting
      · exact (safe.decisions.deferred waiting).2 old
  · refine safe.real.aside { Aside.refl s with
      events := .fire .refl fun launches => launches } ?_
    exact ⟨fun _ => id, fun _ => id, fun fresh => ⟨fresh, rfl, rfl⟩⟩
  · obtain ⟨real, workers, started⟩ := safe.sent
    refine ⟨real, ?_, fun tid member =>
      (started tid member).imp_right fun started => subset started⟩
    show (task :: s.workers).Perm (s.sqLive.insert task ++ real)
    rw [List.insert_of_not_mem dead]
    exact workers.cons task

private theorem startScene (scene : task ∈ rq.runqSetsceneTids)
    (idle : task ∉ s.sqRunning) (waitless : task ∉ s.sqDeferred.keys)
    (hard : ∀ hard ∈ rq.sqdata.sqHarddepsRev task, s.Decided hard) :
    (rq.startScene task s).Ends rq.Safe := by
  have cases := rq.startScene_cases task s
  generalize rq.startScene task s = flow at cases ⊢
  cases cases with
  | failed rechecked =>
      have safe := safe.rechecked rechecked
      obtain ⟨_, _, _, _, _, _, _, rfl⟩ := rechecked
      exact safe.sqTaskFailoutright scene idle
  | skipped rechecked =>
      have safe := safe.rechecked rechecked
      obtain ⟨_, _, _, _, _, _, _, rfl⟩ := rechecked
      refine safe.sqTaskSkip scene ?_ ?_ (.inl (by simp))
      · exact fun live => idle (safe.decisions.live live).sqRunning
      · exact fun failed => idle (safe.decisions.sqRunning (.inr failed))
  | raised => trivial
  | returned rechecked =>
      exact safe.sceneStarted rechecked scene idle waitless hard
  | goOn rechecked =>
      exact safe.sceneStarted rechecked scene idle waitless hard

theorem executeScene : (rq.executeScene s).Ends rq.Safe := by
  have unwaiting : ∀ {browsed : RunQueueExecute Tid} (task : Tid),
      rq.Safe browsed → rq.Safe
        { browsed with sqDeferred := browsed.sqDeferred.del task } := by
    intro browsed task safe
    refine safe.quiet ?_ { Aside.refl browsed with } rfl rfl
    exact { Kept.refl browsed with
      sqDeferred := fun _ member =>
        ((Dict.mem_keys_del _ _ _).mp member).2 }
  unfold Prepared.executeScene
  split_ifs
  · have cases := rq.sceneLoop_cases rq.runqSetsceneTids.length s
    generalize rq.sceneLoop rq.runqSetsceneTids.length s = flow at cases ⊢
    cases cases with
    | @notNeeded browsed task passed scene idle skippable covered =>
        have safe := safe.browsed passed
        obtain ⟨_, _, _, _, _, rfl⟩ := passed
        have skipped : rq.Safe (rq.sqTaskSkip task .notNeeded _) :=
          safe.sqTaskSkip scene
            (fun live => idle (safe.decisions.live live).sqRunning)
            (fun failed => idle (safe.decisions.sqRunning (.inr failed)))
            (.inr ⟨skippable, covered⟩)
        exact (unwaiting task skipped).quiet { Kept.refl _ with }
          { Aside.refl _ with } rfl rfl
    | deferred passed => exact safe.browsed passed
    | @failed browsed task passed scene idle =>
        have safe := unwaiting task (safe.browsed passed)
        obtain ⟨_, _, _, _, _, rfl⟩ := passed
        exact safe.sqTaskFailoutright scene idle
    | @picked browsed task passed scene idle hard =>
        have safe := unwaiting task (safe.browsed passed)
        obtain ⟨_, _, _, _, _, rfl⟩ := passed
        refine safe.startScene scene idle ?_ hard
        exact fun waiting => ((Dict.mem_keys_del _ _ _).mp waiting).1 rfl
    | none passed => exact safe.browsed passed
  · exact safe

theorem executeSceneDone : (rq.executeSceneDone s).Ends rq.Safe := by
  have finished : rq.Safe (s.fire .sceneQueueComplete) := by
    refine safe.quiet ?_ ?_ rfl rfl
    · exact { Kept.refl s with events := List.subset_cons_self _ _ }
    · exact { Aside.refl s with
        events := .fire .refl fun launches => launches }
  have cases := rq.executeSceneDone_cases s
  generalize rq.executeSceneDone s = flow at cases ⊢
  cases cases with
  | goOn => exact safe
  | finished =>
      exact finished.quiet { Kept.refl _ with } { Aside.refl _ with } rfl rfl
  | returned =>
      exact finished.quiet { Kept.refl _ with } { Aside.refl _ with } rfl rfl

theorem depsProvided (scheduled : rq.Scheduled s task)
    (uncovered : task ∉ s.tasksCovered) :
    ∀ dep ∈ rq.depends task, rq.Provided s.events dep := by
  have ready := (safe.real.schedBuildable
    scheduled.schedBuildable).resolve_left scheduled.runqRunning
  have raw := safe.real.tasksNotcovered
    (scheduled.sorted.resolve_left uncovered)
  intro dep edge
  rcases safe.real.completed (ready edge) with provided | skipped
  · exact provided
  · exact .inr (.inr
      ((safe.real.skipped skipped).provided safe.decisions raw edge))

theorem skippable (fresh : s.holdoffNeedUpdate = false)
    (scheduled : rq.Scheduled s task) (covered : task ∈ s.tasksCovered) :
    rq.Skippable s task := by
  obtain ⟨raw, scene⟩ := safe.real.tasksCovered fresh task covered
  rw [mem_rawNotcovered, not_or, not_or] at raw
  obtain ⟨-, below, unskippable⟩ := raw
  constructor
  · intro closed
    by_contra normal
    exact unskippable ⟨closed, normal⟩
  · exact scene
  · intro source member covers
    by_contra uncovered
    have undecided : ¬ s.Decided source := by
      rintro (decided | failed)
      · exact uncovered decided
      · exact below ⟨source, failed, covers⟩
    rcases (safe.real.holdoffTasks fresh source member undecided).2 task
      covers with complete | held
    · exact scheduled.runqRunning (safe.real.running complete)
    · exact scheduled.holdoffTasks held

private theorem fire {event : Event Tid}
    (skipped : ∀ tid, .taskSkipped tid .covered = event → rq.Skippable s tid)
    (started : rq.StartsProvided (event :: s.events)) :
    rq.Safe (s.fire event) := by
  have subset : s.events ⊆ event :: s.events := List.subset_cons_self _ _
  constructor
  · exact safe.decisions.kept { Kept.refl s with events := subset }
  · refine { safe.real with
      completed := fun complete => (safe.real.completed complete).imp
        (fun provided => provided.mono subset) fun skipped => subset skipped
      skipped := ?_
      started := started }
    intro tid member
    rcases List.mem_cons.mp member with same | before
    · exact (skipped tid same).grown fun _ => id
    · exact (safe.real.skipped before).grown fun _ => id
  · obtain ⟨real, workers, started⟩ := safe.sent
    exact ⟨real, workers, fun tid member =>
      (started tid member).imp_right fun started => subset started⟩

theorem fireStarted (noexec : Bool)
    (provided : ∀ dep ∈ rq.depends task, rq.Provided s.events dep) :
    rq.Safe (s.fire (.taskStarted task noexec)) :=
  safe.fire nofun ⟨provided, safe.real.started⟩

private theorem fireSkipped {reason : SkipReason}
    (skippable : reason = .covered → rq.Skippable s task) :
    rq.Safe (s.fire (.taskSkipped task reason)) := by
  have started : rq.StartsProvided
      (.taskSkipped task reason :: s.events) := safe.real.started
  refine safe.fire (fun tid skipped => ?_) started
  cases skipped
  exact skippable rfl

private theorem run (task : Tid) :
    rq.Safe { s with runqRunning := s.runqRunning.insert task } := by
  have grown : s.runqRunning ⊆ s.runqRunning.insert task :=
    fun _ member => List.mem_insert_of_mem member
  constructor
  · exact safe.decisions.kept { Kept.refl s with }
  · exact { safe.real with
      running := fun _ complete => grown (safe.real.running complete)
      schedBuildable := fun buildable =>
        (safe.real.schedBuildable buildable).imp_left
          fun running => grown running
      skipped := fun skipped =>
        (safe.real.skipped skipped).grown fun _ => id }
  · obtain ⟨real, workers, started⟩ := safe.sent
    exact ⟨real, workers, fun tid member =>
      (started tid member).imp_left fun running => grown running⟩

theorem taskSkip {reason : SkipReason}
    (skippable : reason = .covered → rq.Skippable s task)
    (unrevived : rq.revives task s = false) :
    rq.Safe (rq.taskSkip task reason s) := by
  have running : rq.Safe ({ s with
      runqRunning := s.runqRunning.insert task }.setbuildable task) :=
    (safe.run task).setbuildable (.inl List.mem_insert_self)
  have fired : rq.Safe (({ s with
      runqRunning := s.runqRunning.insert task }.setbuildable task).fire
        (.taskSkipped task reason)) :=
    running.fireSkipped fun covered => (skippable covered).grown fun _ => id
  refine Safe.quiet (fired.taskCompleteoutright List.mem_insert_self ?_ ?_)
    { Kept.refl _ with } { Aside.refl _ with } rfl rfl
  · cases reason with
    | covered => exact .inr List.mem_cons_self
    | existing => exact .inl (.inr (.inl List.mem_cons_self))
  · rw [← unrevived]
    exact rq.revives_congr task rfl rfl rfl rfl rfl

theorem taskComplete (running : task ∈ s.runqRunning)
    (started : ∃ noexec, .taskStarted task noexec ∈ s.events)
    (unrevived : rq.revives task s = false) :
    rq.Safe (rq.taskComplete task s) := by
  have fired : rq.Safe ({ s with stats := s.stats.taskCompleted }.fire
      (.taskCompleted task)) := by
    refine safe.quiet ?_ ?_ rfl rfl
    · exact { Kept.refl s with events := List.subset_cons_self _ _ }
    · exact { Aside.refl s with
        events := .fire .refl fun launches => launches }
  refine Safe.quiet (fired.taskCompleteoutright running ?_ ?_)
    { Kept.refl _ with } { Aside.refl _ with } rfl rfl
  · obtain ⟨noexec, started⟩ := started
    exact .inl (.inl ⟨⟨noexec, List.mem_cons_of_mem _ started⟩,
      List.mem_cons_self⟩)
  · rw [← unrevived]
    exact rq.revives_congr task rfl rfl rfl rfl rfl

theorem taskFail (task : Tid) (exitcode : ExitCode) :
    rq.Safe (rq.taskFail task exitcode s) := by
  have fired : rq.Safe ({ s with
      stats := s.stats.taskFailed
      failedTids := s.failedTids ++ [task] }.fire
        (.taskFailed task exitcode)) := by
    refine safe.quiet ?_ ?_ rfl rfl
    · exact { Kept.refl s with events := List.subset_cons_self _ _ }
    · exact { Aside.refl s with
        events := .fire .refl fun launches => launches }
  unfold Prepared.taskFail
  dsimp only
  split_ifs
  · exact fired.quiet { Kept.refl _ with } { Aside.refl _ with } rfl rfl
  · exact fired

private theorem taskStarted {checked : RunQueueExecute Tid}
    (rechecked : Rechecked (s.fire (.taskStarted task false)) checked)
    (provided : ∀ dep ∈ rq.depends task, rq.Provided s.events dep) :
    rq.Safe (rq.taskStarted task checked) := by
  have running :=
    ((safe.fireStarted false provided).rechecked rechecked).run task
  obtain ⟨_, _, _, _, _, _, _, rfl⟩ := rechecked
  constructor
  · exact running.decisions.kept { Kept.refl _ with }
  · refine running.real.aside { Aside.refl _ with } ?_
    exact ⟨fun _ => id, fun _ => id, fun fresh => ⟨fresh, rfl, rfl⟩⟩
  · obtain ⟨real, workers, started⟩ := running.sent
    refine ⟨task :: real, (workers.cons task).trans List.perm_middle.symm, ?_⟩
    intro tid member
    rcases List.mem_cons.mp member with rfl | member
    · exact ⟨List.mem_insert_self, List.mem_cons_self⟩
    · exact started tid member

private theorem startTask (fresh : s.holdoffNeedUpdate = false)
    (scheduled : rq.Scheduled s task)
    (unrevived : ∀ completing ∈ rq.completing task s,
      rq.revives task completing = false) :
    (rq.startTask task s).Ends rq.Safe := by
  have cases := rq.startTask_cases task s
  generalize rq.startTask task s = flow at cases ⊢
  cases cases with
  | refused rechecked => exact (safe.rechecked rechecked).taskFail task _
  | covered rechecked completing covered =>
      have skippable := safe.skippable fresh scheduled covered
      have still := safe.rechecked rechecked
      have unrevived := unrevived _ completing
      obtain ⟨_, _, _, _, _, _, _, rfl⟩ := rechecked
      exact still.taskSkip (fun _ => skippable.grown fun _ => id) unrevived
  | existing rechecked completing =>
      have skipped : rq.Safe (rq.taskSkip task .existing _) :=
        (safe.rechecked rechecked).taskSkip nofun (unrevived _ completing)
      exact skipped.quiet { Kept.refl _ with } { Aside.refl _ with } rfl rfl
  | noexec rechecked completing uncovered =>
      have provided := safe.depsProvided scheduled uncovered
      have unrevived := unrevived _ completing
      have still := safe.rechecked rechecked
      obtain ⟨_, _, _, _, _, _, _, rfl⟩ := rechecked
      have running := (still.fireStarted true provided).run task
      refine Safe.taskComplete (running.quiet { Kept.refl _ with }
        { Aside.refl _ with } rfl rfl) List.mem_insert_self ?_ ?_
      · exact ⟨true, List.mem_cons_self⟩
      · rw [← unrevived]
        exact rq.revives_congr task rfl rfl rfl rfl rfl
  | unstartable rechecked uncovered =>
      have provided := safe.depsProvided scheduled uncovered
      exact ((safe.fireStarted false provided).rechecked rechecked).quiet
        { Kept.refl _ with } { Aside.refl _ with } rfl rfl
  | returned rechecked uncovered =>
      exact safe.taskStarted rechecked (safe.depsProvided scheduled uncovered)
  | goOn rechecked uncovered =>
      exact safe.taskStarted rechecked (safe.depsProvided scheduled uncovered)

theorem executeIdle : rq.Safe (rq.executeIdle s) := by
  obtain ⟨_, sqDeferred, events, same, fired, deferred⟩ :=
    rq.executeIdle_cases s
  rw [same]
  refine safe.quiet ?_ ?_ rfl rfl
  · refine { Kept.refl s with sqDeferred := ?_, events := ?_ }
    · rcases deferred with rfl | rfl
      · exact fun _ => id
      · exact (List.tail_sublist s.sqDeferred).map Prod.fst |>.subset
    · rcases fired with rfl | rfl
      · exact fun _ => id
      · exact List.subset_cons_self _ _
  · refine { Aside.refl s with events := ?_ }
    rcases fired with rfl | rfl
    · exact .refl
    · exact .fire .refl fun launches => launches

end Safe

variable (rq)

/-- A step without a hash migration that revives no failed setscene task. -/
def Unrevived (s : RunQueueExecute Tid) : Action Tid → Prop
  | .execute =>
      match rq.executeNext s with
      | .goOn s' (some task) => ∀ completing ∈ rq.completing task s',
          rq.revives task completing = false
      | _ => True
  | .waitpid task status =>
      status = 0 → task ∉ s.sqLive → rq.revives task s = false
  | .taskUniHashUpdate _ _ => False
  | _ => True

instance (s : RunQueueExecute Tid) (action : Action Tid) :
    Decidable (rq.Unrevived s action) :=
  match action with
  | .execute => by
      dsimp only [Unrevived]
      exact match rq.executeNext s with
        | .goOn _ (some _) => inferInstance
        | .goOn _ none => .isTrue trivial
        | .returned _ => .isTrue trivial
        | .raised => .isTrue trivial
  | .waitpid task status => inferInstanceAs (Decidable
      (status = 0 → task ∉ s.sqLive → rq.revives task s = false))
  | .taskUniHashUpdate _ _ => .isFalse id
  | .finish => .isTrue trivial
  | .finishNow => .isTrue trivial

variable {rq}

namespace Safe

private theorem executeNext (safe : rq.Safe s) :
    (∀ s', rq.executeNext s = .returned s' → rq.Safe s') ∧
      ∀ s' chosen, rq.executeNext s = .goOn s' chosen →
        (rq.Safe s' ∧ s'.holdoffNeedUpdate = false) ∧
          ∀ task ∈ chosen, rq.Scheduled s' task := by
  have ends := rq.executeNext_ends rq.Safe
    (fun s => rq.Safe s ∧ s.holdoffNeedUpdate = false) safe
    (fun queued => by
      simp [safe.decisions.updatedTaskhashQueue,
        safe.decisions.pendingMigrations] at queued)
    (fun s safe => safe.executeScene)
    (fun s safe => ⟨safe.updateHoldofftasks, rq.updateHoldofftasks_fresh s⟩)
    (fun s settled => by
      have safe := settled.1.executeSceneDone
      have cases := rq.executeSceneDone_cases s
      generalize rq.executeSceneDone s = flow at cases safe ⊢
      cases cases <;> exact ⟨safe, settled.2⟩)
    (fun s _ _ subset settled => ⟨settled.1.quiet { Kept.refl s with }
      { Aside.refl s with schedBuildable := subset } rfl rfl, settled.2⟩)
  exact ⟨fun s' returned => (ends.1 s' returned).elim id And.left, ends.2⟩

theorem execute (safe : rq.Safe s) (unrevived : rq.Unrevived s .execute)
    (executed : rq.execute s = some s') : rq.Safe s' := by
  obtain ⟨returned, goOn⟩ := safe.executeNext
  unfold Prepared.execute at executed
  split at executed
  · simp at executed
  · rename_i stopped flow
    cases executed
    exact returned _ flow
  · rename_i goes flow
    cases executed
    exact (goOn _ _ flow).1.1.executeIdle
  · rename_i goes task flow
    obtain ⟨⟨next, fresh⟩, scheduled⟩ := goOn _ _ flow
    have unrevived : ∀ completing ∈ rq.completing task goes,
        rq.revives task completing = false := by
      simpa only [Unrevived, flow] using unrevived
    have started := next.startTask fresh (scheduled task rfl) unrevived
    split at executed
    · simp at executed
    · rename_i flow
      rw [flow] at started
      cases executed
      exact started
    · rename_i flow
      rw [flow] at started
      cases executed
      exact started.executeIdle

private theorem sceneEnded (safe : rq.Safe s) (live : task ∈ s.sqLive)
    (decisions : rq.Decisions s') (aside : Aside s s')
    (workers : s'.workers = s.workers.erase task)
    (sqLive : s'.sqLive = discard s.sqLive task)
    (covered : s.scenequeueCovered ⊆ s'.scenequeueCovered)
    (notcovered : s.scenequeueNotcovered ⊆ s'.scenequeueNotcovered)
    (stale : s'.holdoffNeedUpdate = true) : rq.Safe s' := by
  apply safe.settled decisions aside covered notcovered stale
  intro real sent
  have left : discard s.sqLive task = s.sqLive.erase task := by
    rw [safe.decisions.nodup.erase_eq_filter, discard]
    exact List.filter_congr fun other _ => by
      by_cases same : other = task <;> simp [same]
  rw [workers, sqLive, left, ← List.erase_append_left _ live]
  exact sent.erase task

private theorem waitpid_scene {status : ℤ} (safe : rq.Safe s)
    (live : task ∈ s.sqLive) :
    rq.Safe (rq.runqueueProcessWaitpid task status s) := by
  have liveScene := safe.decisions.live live
  have ended : task ∉ discard s.sqLive task := by simp
  simp only [runqueueProcessWaitpid, if_pos live]
  split_ifs
  · obtain ⟨failed, _, same, passed, stale⟩ := rq.sqTaskFail_passed task
      status { s with
        workers := s.workers.erase task
        buildStamps := s.buildStamps.del task }
    rw [same]
    have sameLive : discard failed.sqLive task = discard s.sqLive task := by
      rw [passed.sqLive]
      rfl
    refine safe.sceneEnded live (safe.decisions.failed ?_ liveScene.scene
      liveScene.undecided passed rfl rfl ⟨_, _, _, rfl⟩) ?_ passed.workers
      sameLive ?_ ?_ stale
    · exact
        { updatedTaskhashQueue := passed.updatedTaskhashQueue
          pendingMigrations := passed.pendingMigrations
          sqRunning := passed.sqRunning
          running := passed.sqRunning liveScene.sqRunning
          sqLive := sameLive ▸ List.filter_sublist
          ended := sameLive ▸ ended
          sqDeferred := by
            rw [passed.sqDeferred]
            exact fun _ => id
          events := by
            rw [passed.events]
            exact List.subset_cons_self _ _ }
    · exact
        { runqRunning := passed.runqRunning
          runqComplete := passed.runqComplete
          schedBuildable := by
            rw [passed.schedBuildable]
            exact fun _ => id
          holdoffTasks := passed.holdoffTasks
          tasksCovered := passed.tasksCovered
          tasksNotcovered := passed.tasksNotcovered
          events := by
            rw [passed.events]
            exact .fire .refl fun launches => launches }
    · rw [passed.scenequeueCovered]
      exact fun _ => id
    · exact fun _ member =>
        passed.scenequeueNotcovered (List.mem_insert_of_mem member)
  · refine safe.sceneEnded live (safe.decisions.provided ?_ liveScene.scene
      (fun failed => liveScene.undecided (.inr failed)) rfl rfl
      (.inl (.inl List.mem_cons_self))) ?_ rfl rfl
      (fun _ member => List.mem_insert_of_mem member) (fun _ => id) rfl
    · exact
        { updatedTaskhashQueue := rfl
          pendingMigrations := rfl
          sqRunning := fun _ => id
          running := liveScene.sqRunning
          sqLive := List.filter_sublist
          ended := ended
          sqDeferred := fun _ => id
          events := List.subset_cons_self _ _ }
    · exact { Aside.refl s with
        events := .fire .refl fun launches => launches }

private theorem waitpid_task {status : ℤ} (safe : rq.Safe s)
    (sent : task ∈ s.workers)
    (real : task ∉ s.sqLive)
    (unrevived : status = 0 → rq.revives task s = false) :
    rq.Safe (rq.runqueueProcessWaitpid task status s) := by
  obtain ⟨others, workers, started⟩ := safe.sent
  have inside : task ∈ others :=
    (List.mem_append.mp (workers.mem_iff.mp sent)).resolve_left real
  obtain ⟨running, launched⟩ := started task inside
  have read : rq.Safe { s with
      workers := s.workers.erase task
      buildStamps := s.buildStamps.del task } := by
    constructor
    · exact safe.decisions.kept { Kept.refl s with }
    · refine safe.real.aside { Aside.refl s with } ?_
      exact ⟨fun _ => id, fun _ => id, fun fresh => ⟨fresh, rfl, rfl⟩⟩
    · refine ⟨others.erase task, ?_, fun tid member =>
        started tid (List.mem_of_mem_erase member)⟩
      rw [← List.erase_append_right _ real]
      exact workers.erase task
  simp only [runqueueProcessWaitpid, if_neg real]
  split_ifs with failed
  · exact read.taskFail task _
  · refine read.taskComplete running ⟨false, launched⟩ ?_
    rw [← unrevived (not_not.mp failed)]
    exact rq.revives_congr task rfl rfl rfl rfl rfl

theorem waitpid {status : ℤ} (safe : rq.Safe s) (sent : task ∈ s.workers)
    (unrevived : rq.Unrevived s (.waitpid task status)) :
    rq.Safe (rq.runqueueProcessWaitpid task status s) := by
  by_cases live : task ∈ s.sqLive
  · exact safe.waitpid_scene live
  · exact safe.waitpid_task sent live fun succeeded =>
      unrevived succeeded live

private theorem finish (safe : rq.Safe s) : rq.Safe (finish s) := by
  have cleaning : rq.Safe { s with state := .cleanUp } :=
    safe.quiet { Kept.refl s with } { Aside.refl s with } rfl rfl
  unfold Prepared.finish
  dsimp only
  split_ifs
  · refine cleaning.quiet ?_ ?_ rfl rfl
    · exact { Kept.refl s with events := List.subset_cons_self _ _ }
    · exact { Aside.refl s with
        events := .fire .refl fun launches => launches }
  · exact safe.quiet { Kept.refl s with } { Aside.refl s with } rfl rfl
  · exact safe.quiet { Kept.refl s with } { Aside.refl s with } rfl rfl

private theorem finishNow (safe : rq.Safe s) : rq.Safe (finishNow s) := by
  unfold Prepared.finishNow
  split_ifs <;>
    exact safe.quiet { Kept.refl s with } { Aside.refl s with } rfl rfl

theorem step {action : Action Tid} (safe : rq.Safe s)
    (unrevived : rq.Unrevived s action) (step : rq.Step s action s') :
    rq.Safe s' := by
  cases step with
  | execute _ executed => exact safe.execute unrevived executed
  | waitpid sent => exact safe.waitpid sent unrevived
  | taskUniHashUpdate => exact absurd unrevived id
  | finish => exact safe.finish
  | finishNow => exact safe.finishNow

end Safe

variable (rq)

theorem mem_initialHashes (waiting : tid ∈ rq.initialHashes.2.keys) :
    tid ∈ rq.runqSetsceneTids := by
  have scenes : ∀ tid ∈ rq.byMulticonfig rq.runqSetsceneTids,
      tid ∈ rq.runqSetsceneTids := by
    intro tid member
    simp only [byMulticonfig, List.mem_flatMap, List.mem_filter,
      mem_sorted] at member
    obtain ⟨_, _, member, _⟩ := member
    exact member
  refine List.foldlRecOn
    (motive := fun acc : Dict Str Tid × Dict Tid Tid =>
      ∀ tid ∈ acc.2.keys, tid ∈ rq.runqSetsceneTids)
    _ _ (by simp [Dict.keys]) (fun acc kept head member => ?_) tid waiting
  simp only [addHash]
  split
  · exact kept
  · intro tid waiting
    rcases (Dict.mem_keys_set _ _ _ _).mp waiting with rfl | old
    · exact scenes _ member
    · exact kept tid old

theorem Safe.blank : rq.Safe rq.blank := by
  constructor
  · exact
      { updatedTaskhashQueue := rfl
        pendingMigrations := rfl
        scene := by simp [RunQueueExecute.Decided, Prepared.blank]
        sqRunning := by simp [RunQueueExecute.Decided, Prepared.blank]
        live := by simp [Prepared.blank]
        nodup := List.nodup_nil
        deferred := fun waiting =>
          ⟨rq.mem_initialHashes waiting, List.not_mem_nil⟩
        once := by simp [Prepared.blank]
        reason := by simp [Prepared.blank] }
  · refine
      { running := fun _ => id
        completed := by simp [Prepared.blank]
        schedBuildable := fun {tid} buildable => .inr ?_
        holdoffTasks := by simp [Prepared.blank]
        tasksCovered := by simp [Prepared.blank]
        tasksNotcovered := List.nil_subset _
        skipped := by simp [Prepared.blank]
        started := trivial }
    have ready := (rq.builtFrom.setbuildable.mp buildable).2.2
    rw [ready]
    exact List.nil_subset _
  · exact ⟨[], .refl _, by simp⟩

theorem Safe.initialised : rq.Safe rq.initialised := by
  have invariant : rq.Safe rq.initialised ∧
      rq.initialised.scenequeueNotcovered = [] ∧
      rq.initialised.sqLive = [] := by
    refine rq.updateScenequeueData_induction
      (motive := fun s => rq.Safe s ∧ s.scenequeueNotcovered = [] ∧
        s.sqLive = []) ?_ ?_ ⟨.blank rq, rfl, rfl⟩
    · intro s s' rechecked kept
      refine ⟨kept.1.rechecked rechecked, ?_⟩
      obtain ⟨_, _, _, _, _, _, _, rfl⟩ := rechecked
      exact kept.2
    · intro s tid reason member needed kept
      obtain ⟨safe, unfailed, idle⟩ := kept
      have scene : tid ∈ rq.runqSetsceneTids := by
        simp only [RunQueueData.sceneKeys, List.mem_filter,
          decide_eq_true_eq] at member
        exact member.2
      refine ⟨safe.sqTaskSkip scene ?_ ?_ (.inl needed), unfailed, idle⟩
      · simp [idle]
      · simp [unfailed]
  exact invariant.1

theorem Safe.initial : rq.Safe rq.initial := by
  unfold Prepared.initial
  split_ifs with sceneless
  · have buildable : rq.Safe
        ((rq.runtaskentries.filter (rq.depends · = [])).foldl
          RunQueueExecute.setbuildable rq.initialised) := by
      refine List.foldlRecOn (motive := rq.Safe) _ _ (.initialised rq)
        fun s safe tid member => safe.setbuildable (.inr ?_)
      simp only [List.mem_filter, decide_eq_true_eq] at member
      rw [member.2]
      exact List.nil_subset _
    constructor
    · exact buildable.decisions.kept { Kept.refl _ with }
    · refine { buildable.real with
        tasksNotcovered := ?_
        skipped := fun skipped => (buildable.real.skipped skipped).grown
          fun _ => id }
      intro tid entry
      have normal : tid ∉ rq.runqSetsceneTids := by simp [sceneless]
      rcases rq.unskippable_or_source entry normal with
        unskippable | ⟨source, scene, -⟩
      · exact rq.mem_rawNotcovered.mpr (.inr (.inr ⟨unskippable, normal⟩))
      · simp [sceneless] at scene
    · exact buildable.sent
  · exact .initialised rq

/-- No task was started on top of a skipped dependency, and a task that was
skipped as covered has stayed covered. -/
structure DependenciesProvided (s : RunQueueExecute Tid) : Prop where
  started : ∀ later earlier task noexec,
    s.events = later ++ .taskStarted task noexec :: earlier →
    ∀ dep ∈ rq.depends task, rq.Provided earlier dep
  skipped : ∀ task, .taskSkipped task .covered ∈ s.events →
    task ∉ s.tasksNotcovered

/-- In runs without hash migrations in which no failed setscene task is
revived, no task runs on top of a skipped dependency. -/
theorem dependencies_provided
    (reached : Reachable (· = rq.initial) rq.Step rq.Unrevived s) :
    rq.DependenciesProvided s := by
  have safe : rq.Safe s := by
    refine reached.invariant ?_ fun _ _ _ => Safe.step
    rintro _ rfl
    exact .initial rq
  constructor
  · exact (rq.startsProvided_iff s.events).mp safe.real.started
  · intro task skipped uncovered
    exact (safe.real.skipped skipped).not_rawNotcovered safe.decisions
      (safe.real.tasksNotcovered uncovered)

theorem dependencies_provided_chain :
    ∃ s, follow chain.perform chain.Unrevived
        [.execute, .execute, .waitpid 2 0, .execute] chain.initial = some s ∧
      chain.DependenciesProvided s := by
  have followed := Option.some_get (by decide :
    (follow chain.perform chain.Unrevived
      [.execute, .execute, .waitpid 2 0, .execute] chain.initial).isSome)
  exact ⟨_, followed.symm, chain.dependencies_provided <|
    .follow (fun s action s' => (chain.step_iff_perform s action s').mpr) _
      (.start rfl) followed.symm⟩

/-- In such runs, while the hold-off tasks are up to date, every setscene task
that is not decided is held off with all it would cover, and every setscene
task above a task that was skipped is covered. -/
theorem undecided_held_off {s : RunQueueExecute Tid}
    (reached : Reachable (· = rq.initial) rq.Step rq.Unrevived s) :
    (s.holdoffNeedUpdate = false →
      ∀ source ∈ rq.runqSetsceneTids, ¬ s.Decided source →
        source ∈ s.holdoffTasks ∧ ∀ tid ∈ rq.sqdata.sqCoveredTasks source,
          tid ∈ s.runqComplete ∨ tid ∈ s.holdoffTasks) ∧
      ∀ tid, .taskSkipped tid .covered ∈ s.events → rq.Skippable s tid := by
  have safe : rq.Safe s := by
    refine reached.invariant ?_ fun _ _ _ => Safe.step
    rintro _ rfl
    exact .initial rq
  exact ⟨safe.real.holdoffTasks, fun _ => safe.real.skipped⟩

/-- Tasks 1 and 2 share a hash and a stamp, so 2 is deferred behind 1; the
setscene variants of 2 and 4 depend hard on 3 and 5.  The stamp exists from the
question on that follows the completion of setscene task 1. -/
def sharedStamp : Prepared (Fin 6) :=
  Setup.prepare
    { Setup.plain
        { toTaskGraph := TaskGraph.ofDepends
            ([0, 3, 1, 2, 4, 5] : List (Fin 6))
            (fun tid => if tid = 0 then [1, 2, 3, 5]
              else if tid = 2 then [4] else [])
            (fun tid => if tid = 0 then 2 else if tid = 2 then 1 else 0)
            (by decide)
          runqSetsceneTids := [3, 1, 2, 4, 5]
          targetTids := [0]
          idepends := fun tid => if tid = 2 then [some 3]
            else if tid = 4 then [some 5] else []
          setscene_mem := by decide }
        { World.bare _ with
          mtime := fun n file =>
            if 17 ≤ n ∧ file = "shared.do_build_setscene.shared".toList then
              some 1
            else none
          hashvalidate := some fun _ tasks => tasks.map Prod.fst
          depvalidate := some fun _ _ _ _ => true }
        (fun tid => if tid = 1 ∨ tid = 2 then "shared".toList
          else if tid = 0 then "image".toList
          else if tid = 3 then "first".toList
          else if tid = 4 then "headers".toList else "last".toList) with
      mc := fun tid => if tid = 2 then "other".toList else []
      revPrioMap := fun tid => tid.val }
    (by decide)

theorem undecided_held_off_sharedStamp :
    ∃ s, follow sharedStamp.perform sharedStamp.Unrevived
        [.execute, .execute, .waitpid 3 0, .execute, .waitpid 1 0, .execute,
          .execute] sharedStamp.initial = some s ∧
      .taskSkipped 1 .covered ∈ s.events ∧ sharedStamp.Skippable s 1 := by
  have skips : ((follow sharedStamp.perform sharedStamp.Unrevived
      [.execute, .execute, .waitpid 3 0, .execute, .waitpid 1 0, .execute,
        .execute] sharedStamp.initial).map fun s =>
          decide (.taskSkipped 1 .covered ∈ s.events)) = some true := by
    decide +kernel
  obtain ⟨s, followed, skipped⟩ := Option.map_eq_some_iff.mp skips
  rw [decide_eq_true_eq] at skipped
  exact ⟨s, followed, skipped, (sharedStamp.undecided_held_off <|
    .follow (fun s action s' =>
      (sharedStamp.step_iff_perform s action s').mpr) _ (.start rfl)
      followed).2 1 skipped⟩

/-- Setscene task 3 fails and 2 with it; when 1 is skipped as covered, the
deferred task 2 is found to have a stamp.  So 4 is not needed, and yet 2 is
started on top of it. -/
def revivingActions : List (Action (Fin 6)) :=
  [.execute, .execute, .waitpid 3 1, .execute, .waitpid 1 0, .execute,
    .execute, .execute, .waitpid 5 0, .execute, .execute, .execute]

theorem not_dependencies_provided_sharedStamp :
    ¬ ∀ s, Reachable (· = sharedStamp.initial) sharedStamp.Step
      (fun _ action => ¬ action.Migrates) s →
      sharedStamp.DependenciesProvided s := by
  intro provided
  have events : (follow sharedStamp.perform
      (fun _ action => ¬ action.Migrates) revivingActions
      sharedStamp.initial).map (·.events) =
    some [.taskStarted 2 false, .taskSkipped 4 .covered, .sceneQueueComplete,
      .sceneTaskSkipped 4 .notNeeded, .sceneTaskCompleted 5,
      .taskStarted 3 false, .sceneTaskSkipped 2 .validStamp,
      .taskSkipped 1 .covered, .sceneTaskStarted 5, .sceneTaskCompleted 1,
      .sceneTaskFailed 3 1, .sceneTaskStarted 1, .sceneTaskStarted 3] := by
    decide
  obtain ⟨s, followed, events⟩ := Option.map_eq_some_iff.mp events
  have reached : Reachable (· = sharedStamp.initial) sharedStamp.Step
      (fun _ action => ¬ action.Migrates) s :=
    .follow (fun s action s' =>
      (sharedStamp.step_iff_perform s action s').mpr) revivingActions
      (.start rfl) followed
  have needed := (provided s reached).started [] _ 2 false events 4
    (by decide)
  simp [Provided, SceneProvided] at needed

end Prepared

end Nvbmc.RunQueue
