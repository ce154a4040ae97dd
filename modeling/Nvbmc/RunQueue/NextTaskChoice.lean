import Nvbmc.RunQueue.NextTask

/-!
# The choice of the next task

In every state that a scheduler can reach, the speed and the completion
scheduler choose an eligible task of the best priority.  The basic scheduler
fails when it looks a task up in its priority map.
-/

namespace Nvbmc.RunQueue

open Nvbmc.Library

section Maps

variable {Tid : Type} {rsplit : Tid → Text × Text} {runtaskentries : List Tid}
  {weight : Tid → ℕ}

theorem perm_completionPrioMap [DecidableEq Tid] :
    ∃ prioMap, completionPrioMap rsplit runtaskentries weight = some prioMap ∧
      prioMap.Perm runtaskentries := by
  have nodup :
      (mergedTasks rsplit (speedPrioMap runtaskentries weight)).Nodup :=
    nodup_mergeTaskLists
  have named : ∀ taskid ∈ runtaskentries,
      (rsplit taskid).2 ∈
        mergedTasks rsplit (speedPrioMap runtaskentries weight) :=
    fun taskid member =>
      mem_mergedTasks.mpr ⟨taskid, perm_speedPrioMap.mem_iff.mpr member, rfl⟩
  refine ⟨_, completionPrioMap_eq nodup named, ?_⟩
  apply (perm_flatMap_filter (List.nodup_reverse.mpr nodup) _).trans
    perm_speedPrioMap
  intro taskid member
  rw [List.mem_reverse]
  exact named taskid (perm_speedPrioMap.mem_iff.mp member)

theorem SchedulerData.prioMap_perm [DecidableEq Tid]
    (rqdata : SchedulerData Tid)
    {name : SchedulerName} (notBasic : name ≠ .basic) :
    ∃ order : List Tid, rqdata.prioMap name = some (order.map .task) ∧
      order.Perm rqdata.runtaskentries := by
  cases name with
  | basic => exact absurd rfl notBasic
  | speed => exact ⟨_, rfl, perm_speedPrioMap⟩
  | completion =>
      obtain ⟨order, isOrder, perm⟩ := @perm_completionPrioMap Tid rqdata.rsplit
        rqdata.runtaskentries rqdata.weight _
      exact ⟨order, by simp [prioMap, isOrder], perm⟩

end Maps

section Choice

variable {Tid : Type} [DecidableEq Tid] (rqdata : SchedulerData Tid)

namespace Scheduler

/-- The limit of a task name that is set. -/
def limitFlag (taskname : Text) : Option Text :=
  match rqdata.numberThreads taskname with
  | some (char :: flag) => some (char :: flag)
  | _ => none

def runningCount (rq : QueueState Tid) (taskname : Text) : ℕ :=
  ((rq.runqRunning.filter (· ∉ rq.runqComplete)).filter
    (rqdata.taskname · = taskname)).length

def NumericLimits : Prop :=
  ∀ taskname flag, limitFlag rqdata taskname = some flag →
    (int? flag).isSome = true

/-- Fewer tasks of the name run than its number_threads allows. -/
def BelowLimit (rq : QueueState Tid) (taskname : Text) : Prop :=
  ∀ flag, limitFlag rqdata taskname = some flag → ∀ limit,
  int? flag = some limit → (runningCount rqdata rq taskname : ℤ) < limit

/-- A task that can start as far as its name has no limit: buildable, not
running, not held off, decided by the setscene queue, with a stamp that no
running task has. -/
structure Waiting (sched : Scheduler Tid) (rq : QueueState Tid) (tid : Tid) :
    Prop where
  buildable : tid ∈ sched.buildable
  notRunning : tid ∉ rq.runqRunning
  notHeldOff : tid ∉ rq.holdoffTasks
  decided : tid ∈ rq.tasksCovered ∨ tid ∈ rq.tasksNotcovered
  stampFree : rqdata.stampfile tid ∉ rq.buildStamps.map Prod.snd

def Eligible (sched : Scheduler Tid) (rq : QueueState Tid) (tid : Tid) : Prop :=
  sched.Waiting rqdata rq tid ∧ BelowLimit rqdata rq (rqdata.taskname tid)

def prio (sched : Scheduler Tid) (tid : Tid) : ℕ :=
  sched.prioMap.idxOf (.task tid)

/-- The task that is meant to be next. -/
structure Chooses (sched : Scheduler Tid) (rq : QueueState Tid)
    (next : Option Tid) : Prop where
  none_iff : next = none ↔ ∀ tid, ¬ sched.Eligible rqdata rq tid
  best : ∀ tid, next = some tid → sched.Eligible rqdata rq tid ∧
    ∀ other, sched.Eligible rqdata rq other → sched.prio tid ≤ sched.prio other

/-- `next_buildable_task` returns the task that is meant, and for a single
candidate the shortcut and the general loop agree. -/
structure NextTaskLaw (sched : Scheduler Tid) (rq : QueueState Tid) : Prop where
  chooses : ∃ next after, sched.nextBuildableTask rqdata rq =
    some (next, after) ∧ sched.Chooses rqdata rq next
  shortcut : ∀ tid, sched.candidates rq = [tid] →
    ((sched.counted rqdata rq).pickSingle rqdata rq (sched.limits rqdata rq).2
      tid).map Prod.fst =
      ((sched.counted rqdata rq).pickBest rqdata rq (sched.limits rqdata rq).2
        [tid]).map Prod.fst

/-- The states that a scheduler reaches, whatever the run queue does between its
calls. -/
inductive Reached (name : SchedulerName) : Scheduler Tid → Prop where
  | init {rq : QueueState Tid} {sched : Scheduler Tid}
      (made : Scheduler.init rqdata name rq = some sched) : Reached name sched
  | newbuildable {sched : Scheduler Tid} (reached : Reached name sched)
      {task : Tid}
      (known : task ∈ rqdata.runtaskentries) : Reached name
      (sched.newbuildable task)
  | removebuildable {sched after : Scheduler Tid} (reached : Reached name sched)
      {task : Tid}
      (removed : sched.removebuildable task = some after) : Reached name after
  | next {sched after : Scheduler Tid} (reached : Reached name sched)
      {rq : QueueState Tid}
      {next : Option Tid} (ran : sched.nextBuildableTask rqdata rq =
        some (next, after)) :
      Reached name after

/-- The invariant of the schedulers. -/
structure Valid (name : SchedulerName) (sched : Scheduler Tid) : Prop where
  prioMap : rqdata.prioMap name = some sched.prioMap
  known : ∀ tid ∈ sched.buildable, tid ∈ rqdata.runtaskentries
  nodup : sched.buildable.Nodup
  flags : ∀ taskname flag, sched.skipMaxthread.get? taskname = some flag →
    flag = rqdata.numberThreads taskname
  stamps : ∀ tid ∈ rqdata.runtaskentries, sched.stamps.get? tid =
    some (rqdata.stampfile tid)
  revPrio : sched.revPrioMap = [] ∨ ∀ tid ∈ rqdata.runtaskentries,
    .task tid ∈ sched.prioMap ∧
      sched.revPrioMap.get? tid = some (sched.prio tid)

variable {rqdata} {name : SchedulerName} {sched after : Scheduler Tid}
  {rq : QueueState Tid}

theorem valid_init (made : Scheduler.init rqdata name rq = some sched) :
    sched.Valid rqdata name := by
  rw [Scheduler.init, Option.bind_eq_bind, Option.bind_eq_some_iff] at made
  obtain ⟨prioMap, isMap, made⟩ := made
  cases made
  constructor
  · exact isMap
  · exact fun tid member => (List.mem_filter.mp member).1
  · exact rqdata.nodup.filter _
  · intro taskname flag found
    cases found
  · intro tid member
    apply Dict.get?_of_mem
    · have keys :
          Dict.keys (rqdata.runtaskentries.map fun tid =>
            (tid, rqdata.stampfile tid)) =
          rqdata.runtaskentries := by simp [Dict.keys, Function.comp_def]
      rw [keys]
      exact rqdata.nodup
    · exact List.mem_map.mpr ⟨tid, member, rfl⟩
  · exact .inl rfl

namespace Valid

variable (valid : sched.Valid rqdata name)
include valid

theorem newbuildable {task : Tid}
    (isTask : task ∈ rqdata.runtaskentries) :
    (sched.newbuildable task).Valid rqdata name := by
  constructor
  · exact valid.prioMap
  · rw [Scheduler.newbuildable]
    split_ifs
    · exact valid.known
    · intro tid member
      rcases List.mem_append.mp member with old | isNew
      · exact valid.known tid old
      · exact List.mem_singleton.mp isNew ▸ isTask
  · rw [Scheduler.newbuildable]
    split_ifs with member
    · exact valid.nodup
    · exact List.concat_eq_append ▸ valid.nodup.concat member
  · exact valid.flags
  · exact valid.stamps
  · exact valid.revPrio

theorem removebuildable {task : Tid}
    (removed : sched.removebuildable task = some after) :
    after.Valid rqdata name := by
  rw [Scheduler.removebuildable] at removed
  split_ifs at removed
  cases removed
  exact ⟨valid.prioMap, fun tid member =>
    valid.known tid (List.mem_of_mem_erase member), valid.nodup.erase _,
    valid.flags, valid.stamps, valid.revPrio⟩

theorem forgetRunning :
    (sched.forgetRunning rq).Valid rqdata name :=
  ⟨valid.prioMap, fun tid member =>
    valid.known tid (List.mem_filter.mp member).1, valid.nodup.filter _,
    valid.flags, valid.stamps, valid.revPrio⟩

end Valid

/-- The flags are those of the configuration, and the tasks of the names with a
limit are counted. -/
structure Counted (rqdata : SchedulerData Tid)
    (state : Dict Text (Option Text) × Dict Text ℕ) (done : List Tid) :
    Prop where
  flags : ∀ taskname flag, state.1.get? taskname = some flag →
    flag = rqdata.numberThreads taskname
  looked : ∀ tid ∈ done, rqdata.taskname tid ∈ state.1.keys
  counts : ∀ taskname, state.2.get? taskname =
    if limitFlag rqdata taskname = none ∨
      (done.filter (rqdata.taskname · = taskname)) = [] then
      none
    else some (done.filter (rqdata.taskname · = taskname)).length

omit [DecidableEq Tid] in
theorem threadsFlag_of_mem {skipMaxthread : Dict Text (Option Text)}
    {taskname : Text}
    (flags : ∀ taskname flag, skipMaxthread.get? taskname = some flag →
      flag = rqdata.numberThreads taskname) (looked :
        taskname ∈ skipMaxthread.keys) :
    threadsFlag skipMaxthread taskname = limitFlag rqdata taskname := by
  obtain ⟨flag, found⟩ :=
    Option.ne_none_iff_exists'.mp (Dict.get?_ne_none_iff.mpr looked)
  rw [threadsFlag, limitFlag, found, flags taskname flag found]
  cases rqdata.numberThreads taskname with
  | none => rfl
  | some flag =>
      cases flag with
      | nil => rfl
      | cons char flag => rfl

omit [DecidableEq Tid] in
theorem Counted.step {state : Dict Text (Option Text) × Dict Text ℕ}
    {done : List Tid} (counted : Counted rqdata state done) (running : Tid) :
    Counted rqdata (countRunning rqdata state running) (done ++ [running]) := by
  -- the flags after the look up
  obtain ⟨skipMaxthread, isSkip⟩ : ∃ skipMaxthread, skipMaxthread =
      if rqdata.taskname running ∈ state.1.keys then state.1
      else state.1.set (rqdata.taskname running)
        (rqdata.numberThreads (rqdata.taskname running)) := ⟨_, rfl⟩
  have flags : ∀ taskname flag, skipMaxthread.get? taskname = some flag →
      flag = rqdata.numberThreads taskname := by
    intro taskname flag found
    rw [isSkip] at found
    split_ifs at found
    · exact counted.flags taskname flag found
    · rw [Dict.get?_set] at found
      split_ifs at found with same
      · rw [same, ← Option.some.inj found]
      · exact counted.flags taskname flag found
  have looked : ∀ tid ∈ done ++ [running], rqdata.taskname tid ∈
      skipMaxthread.keys := by
    have grows : ∀ taskname, taskname = rqdata.taskname running ∨
        taskname ∈ state.1.keys → taskname ∈ skipMaxthread.keys := by
      intro taskname member
      rw [isSkip]
      split_ifs with known
      · rcases member with rfl | old
        · exact known
        · exact old
      · exact (Dict.mem_keys_set ..).mpr member
    intro tid member
    rcases List.mem_append.mp member with earlier | isLast
    · exact grows _ (.inr (counted.looked tid earlier))
    · exact grows _ (.inl (by rw [List.mem_singleton.mp isLast]))
  have isFlag := threadsFlag_of_mem flags (looked running (by simp))
  rw [countRunning]
  simp only [← isSkip, isFlag]
  split_ifs with unlimited
  · refine ⟨flags, looked, fun taskname => ?_⟩
    rw [counted.counts]
    by_cases same : rqdata.taskname running = taskname
    · simp [← same, unlimited]
    · simp [List.filter_append, same]
  · refine ⟨flags, looked, fun taskname => ?_⟩
    rw [Dict.get?_set]
    by_cases same : taskname = rqdata.taskname running
    · have before := counted.counts (rqdata.taskname running)
      simp only [unlimited, false_or] at before
      have total : (state.2.get? (rqdata.taskname running)).getD 0 =
          (done.filter
            (rqdata.taskname · = rqdata.taskname running)).length := by
        rw [before]
        split_ifs with empty
        · rw [empty]
          rfl
        · rfl
      have longer : (done ++ [running]).filter
          (rqdata.taskname · = rqdata.taskname running) =
          done.filter (rqdata.taskname · = rqdata.taskname running) ++
            [running] := by
        rw [List.filter_append]
        simp
      rw [if_pos same, same, total, longer, if_neg (by simp [unlimited]),
        List.length_append]
      rfl
    · have other : rqdata.taskname running ≠ taskname := Ne.symm same
      rw [if_neg same, counted.counts]
      simp [List.filter_append, other]

theorem counted_limits (valid : sched.Valid rqdata name) :
    Counted rqdata (sched.limits rqdata rq)
      (rq.runqRunning.filter (· ∉ rq.runqComplete)) := by
  rw [limits]
  induction rq.runqRunning.filter
    (· ∉ rq.runqComplete) using List.reverseRecOn with
  | nil =>
      refine ⟨valid.flags, by simp, fun taskname => ?_⟩
      simp
  | append_singleton done running induction =>
      rw [List.foldl_append]
      exact induction.step running

theorem isFull_eq (valid : sched.Valid rqdata name)
    (numeric : NumericLimits rqdata) (taskname : Text) :
    ∃ full, isFull (sched.limits rqdata rq).1 (sched.limits rqdata rq).2
      taskname = some full ∧
      (full = true ↔ runningCount rqdata rq taskname ≠ 0 ∧
        ¬ BelowLimit rqdata rq taskname) := by
  have counted : Counted rqdata (sched.limits rqdata rq)
    (rq.runqRunning.filter (· ∉ rq.runqComplete)) := counted_limits valid
  have counts := counted.counts taskname
  rw [isFull, counts]
  split_ifs with unlimited
  · refine ⟨false, rfl, ?_⟩
    rcases unlimited with unset | noneRuns
    · simp [BelowLimit, unset]
    · have zero : runningCount rqdata rq taskname = 0 := by
        rw [runningCount, noneRuns]
        rfl
      simp [zero]
  · push Not at unlimited
    obtain ⟨isSet, runs⟩ := unlimited
    obtain ⟨flag, isFlag⟩ := Option.ne_none_iff_exists'.mp isSet
    obtain ⟨limit, isLimit⟩ :=
      Option.isSome_iff_exists.mp (numeric taskname flag isFlag)
    obtain ⟨tid, member⟩ := List.exists_mem_of_ne_nil _ runs
    obtain ⟨isRunning, named⟩ := List.mem_filter.mp member
    have looked := counted.looked tid isRunning
    rw [of_decide_eq_true named] at looked
    have found := threadsFlag_of_mem counted.flags looked
    refine ⟨_, by
      simp only [found, isFlag, Option.bind_eq_bind, Option.bind_some, isLimit]
      rfl, ?_⟩
    have positive : runningCount rqdata rq taskname ≠ 0 := by
      rw [runningCount, Ne, List.length_eq_zero_iff]
      exact runs
    rw [decide_eq_true_iff, BelowLimit]
    simp only [isFlag, Option.some.injEq, forall_eq', isLimit, not_lt]
    exact ⟨fun reached => ⟨positive, reached⟩, fun both => both.2⟩

/-- A candidate that the loop can take. -/
def Passes (rqdata : SchedulerData Tid) (rq : QueueState Tid) (tid : Tid) :
    Prop :=
  ¬ (runningCount rqdata rq (rqdata.taskname tid) ≠ 0 ∧
      ¬ BelowLimit rqdata rq (rqdata.taskname tid)) ∧
    rqdata.stampfile tid ∉ rq.buildStamps.map Prod.snd

structure IsBest (rqdata : SchedulerData Tid) (sched : Scheduler Tid)
    (rq : QueueState Tid)
    (candidates : List Tid) (best : Option (Tid × ℕ)) : Prop where
  none_iff : best = none ↔ ∀ tid ∈ candidates, ¬ Passes rqdata rq tid
  best : ∀ tid prio, best = some (tid, prio) → prio = sched.prio tid ∧
    tid ∈ candidates ∧ Passes rqdata rq tid ∧
    ∀ other ∈ candidates, Passes rqdata rq other →
      sched.prio tid ≤ sched.prio other

variable {skipBuildable : Dict Text ℕ} {tid : Tid}

theorem IsBest.pick {loop : Scheduler Tid} {done : List Tid}
    {best : Option (Tid × ℕ)} {full : Bool}
    (isBest : IsBest rqdata sched rq done best)
    (found : loop.revPrioMap.get? tid = some (sched.prio tid))
    (isFull : isFull loop.skipMaxthread skipBuildable (rqdata.taskname tid) =
      some full)
    (full_iff : full = true ↔ runningCount rqdata rq (rqdata.taskname tid) ≠ 0 ∧
      ¬ BelowLimit rqdata rq (rqdata.taskname tid))
    (stamp : loop.stamps.get? tid = some (rqdata.stampfile tid)) :
    ∃ next, loop.pick rqdata rq skipBuildable best tid = some next ∧
      IsBest rqdata sched rq (done ++ [tid]) next := by
  -- a task that is passed over for a former one or because it does not pass
  have passedOver :
      (Passes rqdata rq tid → ∃ former ∈ best, former.2 ≤ sched.prio tid) →
      IsBest rqdata sched rq (done ++ [tid]) best := by
    intro reason
    constructor
    · rw [isBest.none_iff]
      constructor
      · intro noneBefore other member
        rcases List.mem_append.mp member with earlier | isLast
        · exact noneBefore other earlier
        · rw [List.mem_singleton.mp isLast]
          intro passes
          obtain ⟨former, isFormer, _⟩ := reason passes
          rw [isBest.none_iff.mpr noneBefore] at isFormer
          cases isFormer
      · exact fun all other member => all other (List.mem_append_left _ member)
    · intro chosen prio isChosen
      obtain ⟨isPrio, member, passes, least⟩ := isBest.best chosen prio isChosen
      refine ⟨isPrio, List.mem_append_left _ member, passes, ?_⟩
      intro other isOther otherPasses
      rcases List.mem_append.mp isOther with earlier | isLast
      · exact least other earlier otherPasses
      · rw [List.mem_singleton.mp isLast] at otherPasses ⊢
        obtain ⟨former, isFormer, notAbove⟩ := reason otherPasses
        rw [isChosen] at isFormer
        cases isFormer
        exact isPrio ▸ notAbove
  rw [Scheduler.pick, found]
  simp only [Option.bind_eq_bind, Option.bind_some, isFull, stamp]
  by_cases better : ∀ former ∈ best, sched.prio tid < former.2
  · rw [if_pos better]
    by_cases isPassing : Passes rqdata rq tid
    · have notFull : ¬ full = true :=
        fun isTrue => isPassing.1 (full_iff.mp isTrue)
      rw [if_neg notFull, if_neg isPassing.2]
      refine ⟨_, rfl, ?_, ?_⟩
      · constructor
        · intro none
          cases none
        · intro all
          exact absurd isPassing (all tid (by simp))
      · intro chosen prio isChosen
        cases isChosen
        refine ⟨rfl, by simp, isPassing, ?_⟩
        intro other isOther otherPasses
        rcases List.mem_append.mp isOther with earlier | isLast
        · cases former : best with
          | none =>
              exact absurd otherPasses (isBest.none_iff.mp former other earlier)
          | some held =>
              obtain ⟨isPrio, _, _, least⟩ := isBest.best held.1 held.2 former
              exact ((better held former).trans_eq isPrio).le.trans
                (least other earlier otherPasses)
        · rw [List.mem_singleton.mp isLast]
    · have same : IsBest rqdata sched rq (done ++ [tid]) best :=
        passedOver fun passes => absurd passes isPassing
      by_cases isFullNow : full = true
      · rw [if_pos isFullNow]
        exact ⟨best, rfl, same⟩
      · rw [if_neg isFullNow]
        have taken : rqdata.stampfile tid ∈ rq.buildStamps.map Prod.snd := by
          by_contra free
          exact isPassing ⟨fun both => isFullNow (full_iff.mpr both), free⟩
        rw [if_pos taken]
        exact ⟨best, rfl, same⟩
  · rw [if_neg better]
    push Not at better
    exact ⟨best, rfl, passedOver fun _ => better⟩

theorem foldlM_pick {loop : Scheduler Tid} {candidates : List Tid}
    (valid : sched.Valid rqdata name) (numeric : NumericLimits rqdata)
    (known : ∀ tid ∈ candidates, tid ∈ rqdata.runtaskentries)
    (flags : loop.skipMaxthread = (sched.limits rqdata rq).1)
    (stamps : loop.stamps = sched.stamps)
    (found : ∀ tid ∈ rqdata.runtaskentries, loop.revPrioMap.get? tid =
      some (sched.prio tid)) :
    ∃ best, candidates.foldlM (loop.pick rqdata rq (sched.limits rqdata rq).2)
      none = some best ∧ IsBest rqdata sched rq candidates best := by
  induction candidates using List.reverseRecOn with
  | nil => exact ⟨none, rfl, by simp, by simp⟩
  | append_singleton done tid induction =>
      obtain ⟨best, ran, isBest⟩ := induction fun other member =>
        known other (List.mem_append_left _ member)
      have isTask := known tid (by simp)
      obtain ⟨full, isFull, full_iff⟩ := @isFull_eq _ _ _ _ _ rq valid numeric
        (rqdata.taskname tid)
      obtain ⟨next, picked, isNext⟩ :=
        isBest.pick (found tid isTask) (flags ▸ isFull) full_iff
        (stamps ▸ valid.stamps tid isTask)
      refine ⟨next, ?_, isNext⟩
      rw [List.foldlM_append, ran]
      simpa using picked

theorem revPrio_basic (valid : sched.Valid rqdata .basic)
    (nonempty : rqdata.runtaskentries ≠ []) : sched.revPrio rqdata = none := by
  have isMap : sched.prioMap = [.keys rqdata.runtaskentries] := by
    have made := valid.prioMap
    rw [SchedulerData.prioMap] at made
    exact (Option.some.inj made).symm
  obtain ⟨first, rest, isEntries⟩ := List.exists_cons_of_ne_nil nonempty
  have unmade : sched.revPrioMap = [] := by
    rcases valid.revPrio with empty | made
    · exact empty
    · have entry := (made first (by simp [isEntries])).1
      simp [isMap] at entry
  rw [revPrio, if_pos unmade, isEntries, List.foldlM_cons, isMap,
    if_neg (by simp)]
  rfl

theorem foldlM_revPrio {entries : List Tid}
    (known : ∀ tid ∈ entries, .task tid ∈ sched.prioMap) :
    ∃ revPrioMap, entries.foldlM (fun (revPrioMap : Dict Tid ℕ) tid =>
        if .task tid ∈ sched.prioMap then
          some (revPrioMap.set tid (sched.prioMap.idxOf (.task tid)))
        else none) [] = some revPrioMap ∧
      ∀ tid ∈ entries, revPrioMap.get? tid = some (sched.prio tid) := by
  induction entries using List.reverseRecOn with
  | nil => exact ⟨[], rfl, by simp⟩
  | append_singleton done last induction =>
      obtain ⟨revPrioMap, ran, found⟩ := induction fun tid member =>
        known tid (List.mem_append_left _ member)
      have isLast := known last (by simp)
      refine ⟨revPrioMap.set last (sched.prio last), ?_, ?_⟩
      · rw [List.foldlM_append, ran]
        simp [isLast, prio]
      · intro tid member
        rw [Dict.get?_set]
        split_ifs with same
        · rw [same]
        · rcases List.mem_append.mp member with earlier | isTid
          · exact found tid earlier
          · exact absurd (List.mem_singleton.mp isTid) same

theorem revPrio_found (valid : sched.Valid rqdata name)
    (notBasic : name ≠ .basic) :
    ∃ revPrioMap, sched.revPrio rqdata = some revPrioMap ∧
      ∀ tid ∈ rqdata.runtaskentries,
        .task tid ∈ sched.prioMap ∧
          revPrioMap.get? tid = some (sched.prio tid) := by
  obtain ⟨order, isOrder, perm⟩ := rqdata.prioMap_perm notBasic
  rw [valid.prioMap] at isOrder
  have isMap := Option.some.inj isOrder
  have known : ∀ tid ∈ rqdata.runtaskentries, .task tid ∈ sched.prioMap := by
    intro tid member
    rw [isMap]
    exact List.mem_map_of_mem (perm.mem_iff.mpr member)
  rw [revPrio]
  split_ifs with unmade
  · obtain ⟨revPrioMap, ran, found⟩ := foldlM_revPrio known
    exact ⟨revPrioMap, ran, fun tid member =>
      ⟨known tid member, found tid member⟩⟩
  · refine ⟨_, rfl, fun tid member => ?_⟩
    rcases valid.revPrio with empty | made
    · exact absurd empty unmade
    · exact made tid member

theorem revPrio_some {revPrioMap : Dict Tid ℕ} (valid : sched.Valid rqdata name)
    (made : sched.revPrio rqdata = some revPrioMap) :
    ∀ tid ∈ rqdata.runtaskentries,
      .task tid ∈ sched.prioMap ∧
        revPrioMap.get? tid = some (sched.prio tid) := by
  by_cases isBasic : name = .basic
  · subst isBasic
    intro tid member
    rw [revPrio_basic valid (List.ne_nil_of_mem member)] at made
    cases made
  · obtain ⟨found, ran, places⟩ := revPrio_found valid isBasic
    rw [ran] at made
    cases made
    exact places

theorem Valid.counted (valid : sched.Valid rqdata name) :
    (sched.counted rqdata rq).Valid rqdata name :=
  ⟨valid.prioMap, fun tid member =>
    valid.known tid (List.mem_filter.mp member).1,
    valid.nodup.filter _, (counted_limits valid).flags, valid.stamps,
    valid.revPrio⟩

theorem Valid.withRevPrio {revPrioMap : Dict Tid ℕ}
    (valid : sched.Valid rqdata name)
    (made : sched.revPrio rqdata = some revPrioMap) :
    ({ sched with revPrioMap := revPrioMap } : Scheduler Tid).Valid rqdata
      name :=
  ⟨valid.prioMap, valid.known, valid.nodup, valid.flags, valid.stamps,
    .inr fun tid member => revPrio_some valid made tid member⟩

theorem Valid.pickBest {candidates : List Tid} {next : Option Tid}
    (valid : sched.Valid rqdata name)
    (ran : sched.pickBest rqdata rq skipBuildable candidates =
      some (next, after)) :
    after.Valid rqdata name := by
  rw [Scheduler.pickBest, Option.bind_eq_bind, Option.bind_eq_some_iff] at ran
  obtain ⟨revPrioMap, made, ran⟩ := ran
  obtain ⟨best, _, isAfter⟩ := Option.bind_eq_some_iff.mp ran
  cases isAfter
  exact valid.withRevPrio made

theorem Valid.nextBuildableTask {next : Option Tid}
    (valid : sched.Valid rqdata name)
    (ran : sched.nextBuildableTask rqdata rq = some (next, after)) :
    after.Valid rqdata name := by
  rw [Scheduler.nextBuildableTask] at ran
  split at ran
  · cases ran
    exact valid.forgetRunning
  · split_ifs at ran with pressed
    · cases ran
      exact valid.forgetRunning
    · split at ran
      · rw [pickSingle, Option.bind_eq_bind, Option.bind_eq_some_iff] at ran
        obtain ⟨full, _, ran⟩ := ran
        split_ifs at ran
        · cases ran
          exact valid.counted
        · obtain ⟨stamp, _, ran⟩ := Option.bind_eq_some_iff.mp ran
          split_ifs at ran
          · exact valid.counted.pickBest ran
          · cases ran
            exact valid.counted
      · exact valid.counted.pickBest ran

theorem Reached.valid (reached : Reached rqdata name sched) :
    sched.Valid rqdata name := by
  induction reached with
  | init made => exact valid_init made
  | newbuildable _ known induction => exact induction.newbuildable known
  | removebuildable _ removed induction =>
      exact induction.removebuildable removed
  | next _ ran induction => exact induction.nextBuildableTask ran

theorem mem_candidates :
    tid ∈ sched.candidates rq ↔ tid ∈ sched.buildable ∧ tid ∉ rq.runqRunning ∧
      tid ∉ rq.holdoffTasks ∧
        (tid ∈ rq.tasksCovered ∨ tid ∈ rq.tasksNotcovered) := by
  simp only [candidates, forgetRunning, List.mem_filter, decide_eq_true_eq,
    and_assoc]

theorem known_of_mem_candidates (valid : sched.Valid rqdata name) :
    ∀ tid ∈ sched.candidates rq, tid ∈ rqdata.runtaskentries :=
  fun tid member => valid.known tid (mem_candidates.mp member).1

theorem waiting_iff : sched.Waiting rqdata rq tid ↔
    tid ∈ sched.candidates rq ∧ rqdata.stampfile tid ∉ rq.buildStamps.map
      Prod.snd := by
  rw [mem_candidates]
  constructor
  · intro waiting
    exact ⟨⟨waiting.buildable, waiting.notRunning, waiting.notHeldOff,
      waiting.decided⟩, waiting.stampFree⟩
  · rintro ⟨⟨buildable, notRunning, notHeldOff, decided⟩, stampFree⟩
    exact ⟨buildable, notRunning, notHeldOff, decided, stampFree⟩

theorem pickBest_spec {candidates : List Tid} (valid : sched.Valid rqdata name)
    (numeric : NumericLimits rqdata) (notBasic : name ≠ .basic)
    (known : ∀ tid ∈ candidates, tid ∈ rqdata.runtaskentries) :
    ∃ best after, (sched.counted rqdata rq).pickBest rqdata rq
      (sched.limits rqdata rq).2 candidates = some (best.map Prod.fst, after) ∧
      IsBest rqdata sched rq candidates best := by
  obtain ⟨revPrioMap, made, found⟩ := revPrio_found valid notBasic
  obtain ⟨best, ran, isBest⟩ := @foldlM_pick _ _ _ name sched rq
    { sched.counted rqdata rq with
      revPrioMap := revPrioMap } candidates valid numeric known rfl
    rfl fun tid member => (found tid member).2
  refine ⟨best, { sched.counted rqdata rq with revPrioMap := revPrioMap }, ?_,
    isBest⟩
  have madeCounted : (sched.counted rqdata rq).revPrio rqdata =
      some revPrioMap := made
  rw [pickBest, madeCounted]
  simp only [Option.bind_eq_bind, Option.bind_some, ran]
  rfl

/-- The shortcut takes the candidate when it passes, and tells nothing but this
from the general loop. -/
theorem pickSingle_spec (valid : sched.Valid rqdata name)
    (numeric : NumericLimits rqdata)
    (notBasic : name ≠ .basic) (known : tid ∈ rqdata.runtaskentries) :
    ∃ next after, (sched.counted rqdata rq).pickSingle rqdata rq
      (sched.limits rqdata rq).2 tid = some (next, after) ∧
      (next = none ↔ ¬ Passes rqdata rq tid) ∧ ∀ other, next = some other →
        other = tid := by
  obtain ⟨full, isFull, full_iff⟩ :=
    @isFull_eq _ _ _ _ _ rq valid numeric (rqdata.taskname tid)
  have isFullCounted : Scheduler.isFull (sched.counted rqdata rq).skipMaxthread
      (sched.limits rqdata rq).2 (rqdata.taskname tid) = some full := isFull
  have stamp : (sched.counted rqdata rq).stamps.get? tid =
      some (rqdata.stampfile tid) :=
    valid.stamps tid known
  rw [pickSingle, isFullCounted]
  simp only [Option.bind_eq_bind, Option.bind_some, stamp]
  split_ifs with isFullNow taken
  · refine ⟨none, _, rfl, ?_, by simp⟩
    simp only [true_iff]
    exact fun passes => passes.1 (full_iff.mp isFullNow)
  · obtain ⟨best, after, ran, isBest⟩ :=
      @pickBest_spec _ _ _ name sched rq [] valid numeric notBasic (by simp)
    have isNone : best = none := isBest.none_iff.mpr (by simp)
    subst isNone
    refine ⟨none, after, ran, ?_, by simp⟩
    simp only [true_iff]
    exact fun passes => passes.2 taken
  · refine ⟨some tid, _, rfl, ?_, fun other same => (Option.some.inj same).symm⟩
    constructor
    · intro isNone
      cases isNone
    · intro fails
      exact absurd ⟨fun both => isFullNow (full_iff.mpr both), taken⟩ fails

theorem nextBuildableTask_spec (valid : sched.Valid rqdata name)
    (numeric : NumericLimits rqdata)
    (notBasic : name ≠ .basic) (relaxed : rq.exceedsMaxPressure = false) :
    ∃ best after, sched.nextBuildableTask rqdata rq =
      some (best.map Prod.fst, after) ∧
      IsBest rqdata sched rq (sched.candidates rq) best := by
  have known := @known_of_mem_candidates _ _ _ _ _ rq valid
  rw [nextBuildableTask]
  split
  · rename_i noCandidates
    rw [noCandidates]
    exact ⟨none, _, rfl, by simp, by simp⟩
  · rename_i tid rest isCandidates
    rw [if_neg (by simp [relaxed])]
    rw [isCandidates] at known ⊢
    split
    · obtain ⟨next, after, ran, none_iff, isTid⟩ :=
        @pickSingle_spec _ _ _ _ _ rq tid valid numeric
        notBasic (known tid List.mem_cons_self)
      refine ⟨next.map fun tid => (tid, sched.prio tid), after, ?_, ?_, ?_⟩
      · rw [ran, Option.map_map]
        simp [Function.comp_def]
      · simp [none_iff]
      · intro chosen prio isChosen
        obtain ⟨other, isNext, isPair⟩ := Option.map_eq_some_iff.mp isChosen
        cases isPair
        obtain rfl := isTid _ isNext
        refine ⟨rfl, List.mem_singleton_self _, ?_, ?_⟩
        · by_contra fails
          rw [none_iff.mpr fails] at isNext
          cases isNext
        · intro other member _
          rw [List.mem_singleton.mp member]
    · exact pickBest_spec valid numeric notBasic known

/-- A candidate passes when it is eligible, or when its limit is not positive
and nothing of its name runs. -/
theorem passes_of_eligible (eligible : sched.Eligible rqdata rq tid) :
    tid ∈ sched.candidates rq ∧ Passes rqdata rq tid :=
  ⟨(waiting_iff.mp eligible.1).1, fun both => both.2 eligible.2,
    eligible.1.stampFree⟩

theorem prio_injective {tid other : Tid} (valid : sched.Valid rqdata name)
    (notBasic : name ≠ .basic) (isTask : tid ∈ rqdata.runtaskentries)
    (same : sched.prio tid = sched.prio other) : tid = other := by
  obtain ⟨revPrioMap, _, found⟩ := revPrio_found valid notBasic
  have entries := (List.idxOf_inj (found tid isTask).1).mp same
  cases entries
  rfl

/-- The best candidate is the task that is meant when no task of a name with a
limit that is not positive comes first. -/
theorem chooses_iff {best : Option (Tid × ℕ)} (valid : sched.Valid rqdata name)
    (notBasic : name ≠ .basic)
    (isBest : IsBest rqdata sched rq (sched.candidates rq) best) :
    sched.Chooses rqdata rq (best.map Prod.fst) ↔
      ∀ tid, sched.Waiting rqdata rq tid →
        runningCount rqdata rq (rqdata.taskname tid) = 0 →
        ¬ BelowLimit rqdata rq (rqdata.taskname tid) →
        ∃ other, sched.Eligible rqdata rq other ∧
          sched.prio other < sched.prio tid := by
  constructor
  · intro chooses tid waiting noneRuns notBelow
    obtain ⟨member, stampFree⟩ := waiting_iff.mp waiting
    have passes : Passes rqdata rq tid :=
      ⟨fun both => both.1 noneRuns, stampFree⟩
    cases isChosen : best with
    | none => exact absurd passes (isBest.none_iff.mp isChosen tid member)
    | some chosen =>
        obtain ⟨_, _, _, least⟩ := isBest.best chosen.1 chosen.2 isChosen
        have eligible := (chooses.best chosen.1 (by rw [isChosen]; rfl)).1
        refine ⟨chosen.1, eligible, lt_of_le_of_ne (least tid member passes)
          fun same => ?_⟩
        have isTask :=
          known_of_mem_candidates valid chosen.1 (passes_of_eligible eligible).1
        rw [prio_injective valid notBasic isTask same] at eligible
        exact notBelow eligible.2
  · intro beaten
    -- what is chosen is eligible
    have eligible : ∀ chosen, best = some chosen →
        sched.Eligible rqdata rq chosen.1 := by
      intro chosen isChosen
      obtain ⟨_, member, passes, least⟩ :=
        isBest.best chosen.1 chosen.2 isChosen
      have waiting := waiting_iff.mpr ⟨member, passes.2⟩
      refine ⟨waiting, ?_⟩
      by_contra notBelow
      have noneRuns : runningCount rqdata rq (rqdata.taskname chosen.1) =
          0 := by
        by_contra runs
        exact passes.1 ⟨runs, notBelow⟩
      obtain ⟨other, otherEligible, before⟩ :=
        beaten chosen.1 waiting noneRuns notBelow
      obtain ⟨otherMember, otherPasses⟩ := passes_of_eligible otherEligible
      exact absurd before (least other otherMember otherPasses).not_gt
    constructor
    · rw [Option.map_eq_none_iff]
      constructor
      · intro isNone tid isEligible
        obtain ⟨member, passes⟩ := passes_of_eligible isEligible
        exact isBest.none_iff.mp isNone tid member passes
      · intro noneEligible
        cases isChosen : best with
        | none => rfl
        | some chosen =>
            exact absurd (eligible chosen isChosen) (noneEligible chosen.1)
    · intro tid isTid
      obtain ⟨chosen, isChosen, rfl⟩ := Option.map_eq_some_iff.mp isTid
      refine ⟨eligible chosen isChosen, fun other isEligible => ?_⟩
      obtain ⟨member, passes⟩ := passes_of_eligible isEligible
      exact (isBest.best chosen.1 chosen.2 isChosen).2.2.2 other member passes

theorem pickBest_basic {candidates : List Tid}
    (valid : sched.Valid rqdata .basic)
    (nonempty : rqdata.runtaskentries ≠ []) :
    sched.pickBest rqdata rq skipBuildable candidates = none := by
  rw [pickBest, revPrio_basic valid nonempty]
  rfl

theorem not_law_basic (valid : sched.Valid rqdata .basic)
    (relaxed : rq.exceedsMaxPressure = false)
    (nonempty : sched.candidates rq ≠ []) :
    ¬ sched.NextTaskLaw rqdata rq := by
  intro law
  obtain ⟨tid, rest, isCandidates⟩ := List.exists_cons_of_ne_nil nonempty
  have isTask :=
    @known_of_mem_candidates _ _ _ _ _ rq valid tid (by simp [isCandidates])
  have fails : ∀ candidates, (sched.counted rqdata rq).pickBest rqdata rq
      (sched.limits rqdata rq).2 candidates = none :=
    fun _ => pickBest_basic valid.counted (List.ne_nil_of_mem isTask)
  obtain ⟨next, after, ran, _⟩ := law.chooses
  rw [nextBuildableTask, isCandidates] at ran
  dsimp only at ran
  rw [if_neg (by simp [relaxed])] at ran
  cases rest with
  | nil =>
      -- the shortcut returns, where the general loop does not
      have same := law.shortcut tid isCandidates
      rw [fails] at same
      rw [show (sched.counted rqdata rq).pickSingle rqdata rq
        (sched.limits rqdata rq).2 tid = some (next, after) from ran] at same
      cases same
  | cons other rest =>
      exact absurd (ran.symm.trans (fails _)) (by simp)

theorem law_of_no_candidates (noCandidates : sched.candidates rq = []) :
    sched.NextTaskLaw rqdata rq := by
  constructor
  · refine ⟨none, sched.forgetRunning rq, ?_, ?_, by simp⟩
    · rw [nextBuildableTask, noCandidates]
    · simp only [true_iff]
      intro tid eligible
      have member := (passes_of_eligible eligible).1
      rw [noCandidates] at member
      cases member
  · intro tid isCandidates
    rw [noCandidates] at isCandidates
    cases isCandidates

theorem shortcut_eq (valid : sched.Valid rqdata name)
    (numeric : NumericLimits rqdata)
    (notBasic : name ≠ .basic) (isCandidates : sched.candidates rq = [tid]) :
    ((sched.counted rqdata rq).pickSingle rqdata rq (sched.limits rqdata rq).2
      tid).map Prod.fst =
      ((sched.counted rqdata rq).pickBest rqdata rq (sched.limits rqdata rq).2
        [tid]).map Prod.fst := by
  have known : ∀ other ∈ [tid], other ∈ rqdata.runtaskentries :=
    isCandidates ▸ known_of_mem_candidates valid
  obtain ⟨next, after, ran, none_iff, isTid⟩ :=
    @pickSingle_spec _ _ _ _ _ rq tid valid numeric
    notBasic (known tid List.mem_cons_self)
  obtain ⟨best, afterBest, ranBest, isBest⟩ :=
    @pickBest_spec _ _ _ _ _ rq [tid] valid numeric notBasic known
  rw [ran, ranBest, Option.map_some, Option.map_some, Option.some_inj]
  by_cases passes : Passes rqdata rq tid
  · cases isNext : next with
    | none => exact absurd passes (none_iff.mp isNext)
    | some other =>
        cases isChosen : best with
        | none =>
            exact absurd passes (isBest.none_iff.mp isChosen tid (by simp))
        | some chosen =>
            have member := (isBest.best chosen.1 chosen.2 isChosen).2.1
            rw [isTid other isNext, Option.map_some,
              List.mem_singleton.mp member]
  · have isNone : best = none := by
      rw [isBest.none_iff]
      intro other member
      rwa [List.mem_singleton.mp member]
    rw [none_iff.mpr passes, isNone]
    rfl

/-- The law of the next task holds of the speed and the completion scheduler, as
far as no task has a limit that is not positive, and of no call of the basic
scheduler that has a candidate. -/
theorem nextTaskLaw_iff (numeric : NumericLimits rqdata)
    (reached : Reached rqdata name sched)
    (relaxed : rq.exceedsMaxPressure = false) :
    sched.NextTaskLaw rqdata rq ↔ sched.candidates rq = [] ∨
      (name ≠ .basic ∧ ∀ tid, sched.Waiting rqdata rq tid →
        runningCount rqdata rq (rqdata.taskname tid) = 0 →
        ¬ BelowLimit rqdata rq (rqdata.taskname tid) →
        ∃ other, sched.Eligible rqdata rq other ∧
          sched.prio other < sched.prio tid) := by
  have valid := reached.valid
  by_cases isBasic : name = .basic
  · subst isBasic
    constructor
    · intro law
      by_contra candidates
      rw [not_or] at candidates
      exact not_law_basic valid relaxed candidates.1 law
    · rintro (noCandidates | ⟨notBasic, _⟩)
      · exact law_of_no_candidates noCandidates
      · exact absurd rfl notBasic
  · obtain ⟨best, after, ran, isBest⟩ :=
      nextBuildableTask_spec valid numeric isBasic relaxed
    have chooses_iff := chooses_iff valid isBasic isBest
    constructor
    · intro law
      obtain ⟨next, afterLaw, ranLaw, chooses⟩ := law.chooses
      rw [ran] at ranLaw
      cases ranLaw
      exact .inr ⟨isBasic, chooses_iff.mp chooses⟩
    · rintro (noCandidates | ⟨_, beaten⟩)
      · exact law_of_no_candidates noCandidates
      · exact ⟨⟨_, after, ran, chooses_iff.mpr beaten⟩,
          fun tid isCandidates => shortcut_eq valid numeric isBasic
            isCandidates⟩

end Scheduler

end Choice

def twoTasks : SchedulerData TaskId where
  runtaskentries := [taskId '1' 'a', taskId '2' 'a']
  weight := fun _ => 1
  rsplit := TaskId.rsplit
  stampfile := fun tid => tid.val
  numberThreads := fun _ => none
  nodup := by decide

def bothBuildable : QueueState TaskId where
  runqBuildable := [taskId '1' 'a', taskId '2' 'a']
  runqRunning := []
  runqComplete := []
  holdoffTasks := []
  tasksCovered := []
  tasksNotcovered := [taskId '1' 'a', taskId '2' 'a']
  buildStamps := []
  statsActive := 0
  exceedsMaxPressure := false

theorem nextTaskLaw_twoTasks :
    ∃ sched, Scheduler.Reached twoTasks .speed sched ∧
      sched.NextTaskLaw twoTasks bothBuildable := by
  have reached :=
    @Scheduler.Reached.init _ _ twoTasks .speed bothBuildable _ rfl
  refine ⟨_, reached, ?_⟩
  apply (Scheduler.nextTaskLaw_iff ?_ reached rfl).mpr
  · refine .inr ⟨by decide, fun tid _ _ notBelow => absurd ?_ notBelow⟩
    intro flag isSet
    cases isSet
  · intro taskname flag isSet
    cases isSet

/-- The basic scheduler raises an exception when there are two candidates. -/
theorem basic_scheduler_fails :
    ∃ sched, Scheduler.Reached twoTasks .basic sched ∧
      sched.nextBuildableTask twoTasks bothBuildable = none ∧
      ¬ sched.NextTaskLaw twoTasks bothBuildable := by
  have reached :=
    @Scheduler.Reached.init _ _ twoTasks .basic bothBuildable _ rfl
  refine ⟨_, reached, rfl, fun law => ?_⟩
  obtain ⟨next, after, ran, _⟩ := law.chooses
  cases ran

end Nvbmc.RunQueue
