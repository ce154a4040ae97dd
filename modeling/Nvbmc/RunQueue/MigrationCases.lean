import Nvbmc.RunQueue.ExecuteCases

/-!
# What a migration can do

`process_possible_migrations` is inverted into the steps it is made of.  The
hash loops only write down hashes; after them setscene tasks that are not live
are taken out of the decided sets, deferred, checked again, skipped and failed.
-/

namespace Nvbmc.RunQueue

/-- The event only reports a new hash. -/
def Event.Rehashes {Tid : Type} : Event Tid → Prop
  | .getTaskhash _ => True
  | .rehashed _ => True
  | _ => False

/-- The state but for hashes, queues and reports of new hashes. -/
def Noted {Tid : Type} (s s' : RunQueueExecute Tid) : Prop :=
  ∃ logged updatedTaskhashQueue pendingMigrations hash unihash stampfileHash
      consults sqBuildable sqdone,
    (∀ event ∈ logged, Event.Rehashes event) ∧
    s' = { s with
      events := logged ++ s.events
      updatedTaskhashQueue := updatedTaskhashQueue
      pendingMigrations := pendingMigrations
      hash := hash
      unihash := unihash
      stampfileHash := stampfileHash
      consults := consults
      sqBuildable := sqBuildable
      sqdone := sqdone }

namespace Noted

variable {Tid : Type} {s s' s'' : RunQueueExecute Tid}

theorem refl (s : RunQueueExecute Tid) : Noted s s :=
  ⟨[], _, _, _, _, _, _, _, _, by simp, rfl⟩

theorem trans (first : Noted s s') (second : Noted s' s'') : Noted s s'' := by
  obtain ⟨earlier, _, _, _, _, _, _, _, _, quiet, rfl⟩ := first
  obtain ⟨later, _, _, _, _, _, _, _, _, quiet', rfl⟩ := second
  refine ⟨later ++ earlier, _, _, _, _, _, _, _, _, ?_, by
    rw [List.append_assoc]⟩
  intro event member
  rcases List.mem_append.mp member with new | old
  · exact quiet' event new
  · exact quiet event old

end Noted

namespace Prepared

variable {Tid : Type} [LinearOrder Tid] (rq : Prepared Tid)

/-- One step of a migration; `migrating` are the tasks it takes out of the
decided sets. -/
inductive MigrationStep (migrating : List Tid) :
    RunQueueExecute Tid → RunQueueExecute Tid → Prop where
  | noted {s s' : RunQueueExecute Tid} : Noted s s' →
      MigrationStep migrating s s'
  | halted {s : RunQueueExecute Tid}
      {pendingMigrations tasksScenequeueDone failedTids : List Tid} :
      MigrationStep migrating s { s with
        pendingMigrations := pendingMigrations
        tasksScenequeueDone := tasksScenequeueDone
        failedTids := failedTids
        state := .cleanUp }
  | forgotten {s : RunQueueExecute Tid} {tid : Tid}
      {pendingMigrations tasksScenequeueDone : List Tid} :
      tid ∈ migrating → tid ∉ s.sqLive → tid ∉ s.runqRunning →
      (∀ dep ∈ rq.sqdata.sqCoveredTasks tid, dep ∈ s.runqRunning →
        dep ∈ s.runqComplete) →
      MigrationStep migrating s (rq.forget tid { s with
        pendingMigrations := pendingMigrations
        tasksScenequeueDone := tasksScenequeueDone })
  | deferred {s : RunQueueExecute Tid} {tid first : Tid} :
      tid ∈ migrating → tid ∉ s.sqLive →
      MigrationStep migrating s
        { s with sqDeferred := s.sqDeferred.set tid first }
  | rechecked {s s' : RunQueueExecute Tid} : Rechecked s s' →
      MigrationStep migrating s s'
  | skipped {s : RunQueueExecute Tid} {tid : Tid}
      {reason : SceneSkipReason} : tid ∈ migrating → tid ∉ s.sqLive →
      MigrationStep migrating s (rq.sqTaskSkip tid reason s)
  | failed {s : RunQueueExecute Tid} {tid : Tid} : tid ∈ migrating →
      tid ∉ s.sqLive →
      MigrationStep migrating s (rq.sqTaskFailoutright tid s)
  | settled {s : RunQueueExecute Tid} : MigrationStep migrating s { s with
      stats := s.stats.updateCovered s.scenequeueCovered.length
        s.scenequeueNotcovered.length
      sqNeededHarddeps := []
      sqHarddepDeferred := []
      holdoffNeedUpdate := true }

omit rq in
private theorem takeUpdate_noted (acc : RunQueueExecute Tid × List Tid)
    (entry : Tid × Str) : Noted acc.1 (takeUpdate acc entry).1 := by
  simp only [takeUpdate]
  split_ifs
  · exact .refl acc.1
  · exact ⟨[], _, _, _, _, _, _, _, _, by simp, rfl⟩
  · refine List.foldlRecOn
      (motive := fun after : RunQueueExecute Tid × List Tid =>
        Noted acc.1 after.1) _ _
      ⟨[], _, _, _, _, _, _, _, _, by simp, rfl⟩ fun after soFar hashtid _ => ?_
    exact soFar.trans ⟨[], _, _, _, _, _, _, _, _, by simp, rfl⟩

private theorem readyTasks_noted (last : Option Tid) (total next : List Tid)
    (s : RunQueueExecute Tid) :
    Noted s (next.foldl (rq.readyTasks last total) (s, [])).1 := by
  refine List.foldlRecOn
    (motive := fun after : RunQueueExecute Tid × List (Tid × Str) =>
      Noted s after.1) _ _ (.refl s) fun after soFar tid _ => ?_
  unfold readyTasks
  split_ifs
  · exact soFar
  · exact soFar.trans ⟨[.getTaskhash tid], _, _, _, _, _, _, _, _,
      by simp [Event.Rehashes], rfl⟩

private theorem rehashTask_noted (unihashes : Tid → Str) (acc : Rehash Tid)
    (ready : Tid × Str) :
    Noted acc.s (rq.rehashTask unihashes acc ready).s := by
  simp only [rehashTask]
  split_ifs <;>
    exact ⟨[.rehashed ready.1], _, _, _, _, _, _, _, _,
      by simp [Event.Rehashes], rfl⟩

private theorem rehash_noted (last : Option Tid) (fuel : ℕ)
    (acc : Rehash Tid) : Noted acc.s (rq.rehash last fuel acc).s := by
  induction fuel generalizing acc with
  | zero => exact .refl acc.s
  | succ fuel induction =>
      simp only [rehash]
      split_ifs
      · exact .refl acc.s
      · refine .trans ?_ (induction _)
        have ready := rq.readyTasks_noted last acc.total acc.next acc.s
        refine List.foldlRecOn
          (motive := fun after : Rehash Tid => Noted acc.s after.s) _ _
          (ready.trans ⟨[], _, _, _, _, _, _, _, _, by simp, rfl⟩)
          fun after soFar ready _ => soFar.trans (rq.rehashTask_noted _ _ _)

theorem rehashAll_noted (s : RunQueueExecute Tid) :
    Noted s (rq.rehashAll s).1 := by
  refine .trans ?_ (rq.rehash_noted _ _ _)
  exact List.foldlRecOn
    (motive := fun acc : RunQueueExecute Tid × List Tid => Noted s acc.1)
    _ _ (.refl s) fun acc soFar entry _ =>
      soFar.trans (takeUpdate_noted acc entry)

/-- What the loop over `pending_migrations` has done so far. -/
structure Migrating (s : RunQueueExecute Tid) (acc : Migration Tid) :
    Prop where
  steps : ∀ migrating, acc.updateTasks ⊆ migrating →
    Relation.ReflTransGen (rq.MigrationStep migrating) s acc.s
  sqLive : acc.s.sqLive = s.sqLive
  idle : ∀ tid ∈ acc.updateTasks, tid ∉ s.sqLive
  halted : acc.halted = true → acc.s.state = .cleanUp
  unchanged : acc.changed = false → acc.updateTasks = [] ∧ Noted s acc.s

variable {s : RunQueueExecute Tid}

private theorem migrate_migrating {acc : Migration Tid}
    (soFar : rq.Migrating s acc) (tid : Tid) :
    rq.Migrating s (rq.migrate acc tid) := by
  simp only [migrate]
  split_ifs with going busy covered halts
  · exact soFar
  · have waits : Noted acc.s { acc.s with
        pendingMigrations := discard acc.s.pendingMigrations tid } :=
      ⟨[], _, _, _, _, _, _, _, _, by simp, rfl⟩
    exact
      { steps := fun migrating subset =>
          (soFar.steps migrating subset).tail (.noted waits)
        sqLive := soFar.sqLive
        idle := soFar.idle
        halted := soFar.halted
        unchanged := fun same => (soFar.unchanged same).imp_right
          fun noted => noted.trans waits }
  · exact soFar
  · exact
      { steps := fun migrating subset =>
          (soFar.steps migrating subset).tail .halted
        sqLive := soFar.sqLive
        idle := soFar.idle
        halted := fun _ => rfl
        unchanged := by simp }
  · rw [not_or] at busy
    simp only [List.any_eq_true, decide_eq_true_eq, not_exists,
      not_and, not_not] at covered
    refine ⟨fun migrating subset => ?_, soFar.sqLive, ?_, by simp, by simp⟩
    · have earlier : acc.updateTasks ⊆ migrating := fun _ member =>
        subset (List.mem_append.mpr (.inl member))
      have member : tid ∈ migrating := by
        apply subset
        simp
      exact (soFar.steps migrating earlier).tail
        (.forgotten member busy.2 busy.1 covered)
    · intro other member
      rcases List.mem_append.mp member with old | new
      · exact soFar.idle other old
      · rw [List.mem_singleton.mp new, ← soFar.sqLive]
        exact busy.2

theorem migrateAll_migrating (s : RunQueueExecute Tid) :
    rq.Migrating s (rq.migrateAll s) := by
  refine List.foldlRecOn (motive := rq.Migrating s) _ _ ?_
    fun acc soFar tid _ => rq.migrate_migrating soFar tid
  have noted : Noted s { (rq.rehashAll s).1 with
      pendingMigrations := (rq.rehashAll s).2.filter (· ∈ rq.runqSetsceneTids) ∪
        (rq.rehashAll s).1.pendingMigrations } :=
    (rq.rehashAll_noted s).trans ⟨[], _, _, _, _, _, _, _, _, by simp, rfl⟩
  have sqLive : (rq.rehashAll s).1.sqLive = s.sqLive := by
    obtain ⟨_, _, _, _, _, _, _, _, _, -, same⟩ := rq.rehashAll_noted s
    rw [same]
  exact
    { steps := fun _ _ => .single (.noted noted)
      sqLive := sqLive
      idle := by simp
      halted := by simp
      unchanged := fun _ => ⟨rfl, noted⟩ }

variable {s' : RunQueueExecute Tid}

omit [LinearOrder Tid] rq in
private theorem Noted.sqLive (noted : Noted s s') : s'.sqLive = s.sqLive := by
  obtain ⟨_, _, _, _, _, _, _, _, _, -, rfl⟩ := noted
  rfl

variable {migrating : List Tid}

theorem MigrationStep.sqLive {rq : Prepared Tid}
    (step : rq.MigrationStep migrating s s') :
    s'.sqLive = s.sqLive := by
  cases step with
  | noted noted => exact Noted.sqLive noted
  | rechecked rechecked =>
      obtain ⟨_, _, _, _, _, _, _, rfl⟩ := rechecked
      rfl
  | skipped => exact (rq.updatecounters_passed _ _ _).1.sqLive
  | failed => exact (rq.updatecounters_passed _ _ _).1.sqLive
  | _ => rfl

theorem MigrationStep.run_sqLive {rq : Prepared Tid}
    (steps : Relation.ReflTransGen (rq.MigrationStep migrating) s s') :
    s'.sqLive = s.sqLive := by
  induction steps with
  | refl => rfl
  | tail _ step induction => exact step.sqLive.trans induction

theorem still_idle {rq : Prepared Tid}
    (steps : Relation.ReflTransGen (rq.MigrationStep migrating) s s')
    (idle : ∀ tid ∈ migrating, tid ∉ s.sqLive) :
    ∀ tid ∈ migrating, tid ∉ s'.sqLive := by
  rw [MigrationStep.run_sqLive steps]
  exact idle

private theorem foldl_steps (tids : List Tid)
    {visit : RunQueueExecute Tid → Tid → RunQueueExecute Tid}
    (subset : tids ⊆ migrating)
    (each : ∀ s tid, tid ∈ migrating → tid ∉ s.sqLive →
      Relation.ReflTransGen (rq.MigrationStep migrating) s (visit s tid))
    (idle : ∀ tid ∈ migrating, tid ∉ s.sqLive) :
    Relation.ReflTransGen (rq.MigrationStep migrating) s
      (tids.foldl visit s) := by
  refine List.foldlRecOn (motive := fun after =>
    Relation.ReflTransGen (rq.MigrationStep migrating) s after) _ _ .refl ?_
  intro after soFar tid member
  refine soFar.trans (each after tid (subset member) ?_)
  rw [MigrationStep.run_sqLive soFar]
  exact idle tid (subset member)

private theorem requeue_noted (s : RunQueueExecute Tid) (tid : Tid) :
    Noted s (rq.requeue s tid) := by
  unfold requeue
  split_ifs
  · exact ⟨[], _, _, _, _, _, _, _, _, by simp, rfl⟩
  · exact .refl s

private theorem updateScenequeueData_steps
    (idle : ∀ tid ∈ migrating, tid ∉ s.sqLive) :
    Relation.ReflTransGen (rq.MigrationStep migrating) s
      (rq.updateScenequeueData migrating s) := by
  refine rq.updateScenequeueData_induction ?_ ?_ .refl
  · exact fun before after rechecked soFar => soFar.tail (.rechecked rechecked)
  · intro before tid reason member _ soFar
    refine soFar.tail (.skipped member ?_)
    rw [MigrationStep.run_sqLive soFar]
    exact idle tid member

omit rq in
private theorem mem_byMulticonfig {rq : Prepared Tid} {tids : List Tid}
    {tid : Tid} (member : tid ∈ rq.byMulticonfig tids) : tid ∈ tids := by
  simp only [byMulticonfig, List.mem_flatMap, List.mem_filter,
    mem_sorted] at member
  obtain ⟨_, _, inside, _⟩ := member
  exact inside

private theorem redefer_steps {tid : Tid} (member : tid ∈ migrating)
    (idle : tid ∉ s.sqLive) :
    Relation.ReflTransGen (rq.MigrationStep migrating) s
      (rq.redefer s tid) := by
  unfold redefer
  split
  · exact .refl
  · split_ifs
    · exact .single (.deferred member idle)
    · exact .refl

private theorem requeueAll_steps (idle : ∀ tid ∈ migrating, tid ∉ s.sqLive) :
    Relation.ReflTransGen (rq.MigrationStep migrating) s
      (rq.requeueAll migrating s) := by
  have requeued := rq.foldl_steps migrating (List.Subset.refl _)
    (fun s tid _ _ => .single (.noted (rq.requeue_noted s tid))) idle
  have reopened : Noted (migrating.foldl rq.requeue s)
      { migrating.foldl rq.requeue s with sqdone := false } :=
    ⟨[], _, _, _, _, _, _, _, _, by simp, rfl⟩
  have deferred := rq.foldl_steps (rq.byMulticonfig migrating)
    (fun _ => mem_byMulticonfig)
    (fun s tid member idle => rq.redefer_steps member idle)
    (still_idle (requeued.tail (.noted reopened)) idle)
  have decided := (requeued.tail (.noted reopened)).trans (deferred.trans
    (rq.updateScenequeueData_steps (still_idle deferred
      (still_idle (requeued.tail (.noted reopened)) idle))))
  simp only [requeueAll]
  split_ifs
  · exact requeued.trans (rq.foldl_steps _ (List.filter_subset_self _)
      (fun s tid member idle => .single (.failed member idle))
      (still_idle requeued idle))
  · exact decided.trans (rq.foldl_steps _ (List.filter_subset_self _)
      (fun s tid member idle => .single (.failed member idle))
      (still_idle decided idle))

theorem processPossibleMigrations_steps (s : RunQueueExecute Tid) :
    Relation.ReflTransGen
      (rq.MigrationStep (rq.migrateAll s).updateTasks) s
      (rq.processPossibleMigrations s) := by
  have migrated := rq.migrateAll_migrating s
  have steps := migrated.steps _ (List.Subset.refl _)
  unfold processPossibleMigrations
  dsimp only
  split_ifs
  · exact steps
  · have requeued := steps.trans
      (rq.requeueAll_steps (still_idle steps migrated.idle))
    unfold settle
    dsimp only
    split_ifs
    · exact requeued.tail .settled
    · exact requeued

/-- A migration halts the build, makes the held off tasks stale or only writes
down hashes. -/
theorem processPossibleMigrations_ends (s : RunQueueExecute Tid) :
    (rq.processPossibleMigrations s).state = .cleanUp ∨
      (rq.processPossibleMigrations s).holdoffNeedUpdate = true ∨
      Noted s (rq.processPossibleMigrations s) := by
  have migrated := rq.migrateAll_migrating s
  unfold processPossibleMigrations
  dsimp only
  split_ifs with halted
  · exact .inl (migrated.halted halted)
  · unfold settle
    dsimp only
    split_ifs with changed
    · exact .inr (.inl rfl)
    · rw [Bool.not_eq_true] at changed
      obtain ⟨none, noted⟩ := migrated.unchanged changed
      rw [none]
      exact .inr (.inr noted)

end Prepared

end Nvbmc.RunQueue
