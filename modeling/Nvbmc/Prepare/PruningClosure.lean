import Mathlib.Data.List.Dedup
import Mathlib.Data.Set.Basic
import Mathlib.Order.Bounds.Defs
import Nvbmc.Library.Grouping
import Nvbmc.Prepare.Pruning

/-!
# What pruning keeps

What steps B and C keep is the least set that holds the selected tasks and is
closed under `depends`, for `--runall` closed also under the tasks wanted of its
recipes.
-/

namespace Nvbmc.Prepare

open Nvbmc.Library

def Target.Considered (target : Target) (taskData : TaskData) : Prop :=
  (taskData.buildTargets.get? target.target).getD [] ≠ [] ∧
    target.target ∉ taskData.failedDeps ∧ target.fn ∉ taskData.failedFns

instance (target : Target) (taskData : TaskData) :
    Decidable (target.Considered taskData) :=
  inferInstanceAs (Decidable (_ ∧ _))

/-- The task stands for its dependencies. -/
def Target.Parents (target : Target) : Prop :=
  ['-'] <:+ target.task

instance (target : Target) : Decidable target.Parents :=
  inferInstanceAs (Decidable (_ <:+ _))

def Target.tid (target : Target) : Tid :=
  Tid.of target.fn (if target.Parents then target.task.dropLast
                    else target.task)

namespace RunQueueData

variable (rq : RunQueueData)

def depends (tid : Tid) : List Tid :=
  ((rq.runtaskentries.get? tid).map RunTaskEntry.depends).getD []

def revdeps (tid : Tid) : List Tid :=
  ((rq.runtaskentries.get? tid).map RunTaskEntry.revdeps).getD []

structure Resolved : Prop where
  unique : rq.runtaskentries.keys.Nodup
  closed : ∀ tid ∈ rq.runtaskentries.keys, ∀ dep ∈ rq.depends tid, dep ∈
    rq.runtaskentries.keys
  fresh : ∀ tid, rq.revdeps tid = []

def TargetsKnown : Prop :=
  ∀ target ∈ rq.targets, ∃ taskData, rq.taskData.get? target.mc =
    some taskData ∧
    ∀ tid ∈ taskData.taskentries.keys, tid ∈ rq.runtaskentries.keys

def selection (target : Target) : List Tid :=
  match rq.taskData.get? target.mc with
  | none => []
  | some taskData =>
      if ¬ target.Considered taskData then []
      else if target.Parents then rq.depends target.tid
      else [target.tid]

def Missing (target : Target) : Prop :=
  ∃ taskData, rq.taskData.get? target.mc = some taskData ∧
    target.Considered taskData ∧ target.tid ∉ taskData.taskentries.keys

def targeted : Set Tid :=
  {tid | ∃ target ∈ rq.targets, tid ∈ rq.selection target}

def wanted (tasks : List Text) (tids : Set Tid) : Set Tid :=
  {wanttid | wanttid ∈ rq.runtaskentries.keys ∧
    ∃ task ∈ tasks, ∃ tid ∈ tids, wanttid =
      Tid.of (fnFromTid tid) (doTask task)}

def Closed (tids : Set Tid) : Prop :=
  ∀ tid ∈ tids, ∀ dep ∈ rq.depends tid, dep ∈ tids

variable {rq}

theorem Closed.mem_of_path {tids : Set Tid} (closed : rq.Closed tids)
    {first tid : Tid} (member : first ∈ tids)
    (path : Relation.ReflTransGen (fun first second => second ∈
      rq.depends first) first tid) :
    tid ∈ tids := by
  induction path with
  | refl => exact member
  | tail _ step inside => exact closed _ inside _ step

theorem isLeast_of_marks {pending runqBuild : List Tid}
    (marks : Marks rq.depends pending [] runqBuild) {selected : Set Tid}
    (isSelected : ∀ tid, tid ∈ selected ↔ tid ∈ pending) :
    IsLeast {tids | rq.Closed tids ∧ selected ⊆ tids}
      {tid | tid ∈ runqBuild} := by
  constructor
  · constructor
    · exact fun tid member dep step => marks.closed (by simp) tid member dep
        step
    · exact fun tid member => marks.begun tid ((isSelected tid).mp member)
  · intro tids holds tid member
    rcases marks.reached tid member with none | ⟨first, isPending, path⟩
    · cases none
    · exact holds.1.mem_of_path (holds.2 ((isSelected first).mpr isPending))
        path

theorem dependsOf_eq {tid : Tid} (member : tid ∈ rq.runtaskentries.keys) :
    rq.dependsOf tid = .ok (rq.depends tid) := by
  obtain ⟨entry, found⟩ :=
    Option.ne_none_iff_exists'.mp (Dict.get?_ne_none_iff.mpr member)
  rw [dependsOf, depends, found]
  rfl

section Target

variable {fuel : ℕ} {active : Active} {target : Target} {taskData : TaskData}
  (found : rq.taskData.get? target.mc = some taskData)

include found

theorem missing_iff : rq.Missing target ↔
    target.Considered taskData ∧ target.tid ∉ taskData.taskentries.keys := by
  rw [Missing, found]
  simp

theorem markTarget_of_not_considered (passed : ¬ target.Considered taskData) :
    rq.markTarget fuel active target = .ok active ∧
      rq.selection target = [] := by
  rw [markTarget, selection, found]
  refine ⟨?_, if_pos passed⟩
  by_cases isBuilt : (taskData.buildTargets.get? target.target).getD [] = []
  · exact if_pos isBuilt
  · by_cases failed : target.target ∈ taskData.failedDeps
    · simp only [if_neg isBuilt, if_pos failed]
    · by_cases failedFn : target.fn ∈ taskData.failedFns
      · simp only [if_neg isBuilt, if_neg failed, if_pos failedFn]
      · exact absurd ⟨isBuilt, failed, failedFn⟩ passed

theorem markTarget_of_missing (considered : target.Considered taskData)
    (missing : target.tid ∉ taskData.taskentries.keys) :
    ∃ task, rq.markTarget fuel active target =
      .error (.noTask task target.target target.tid) := by
  obtain ⟨isBuilt, notFailed, notFailedFn⟩ := considered
  rw [← Dict.contains_iff] at missing
  rw [markTarget, found]
  simp only [if_neg isBuilt, if_neg notFailed, if_neg notFailedFn]
  exact ⟨_, if_pos missing⟩

theorem markTarget_of_task (considered : target.Considered taskData)
    (isTask : target.tid ∈ taskData.taskentries.keys)
    (inside : target.tid ∈ rq.runtaskentries.keys) {runqBuild : List Tid}
    (marked : (rq.selection target).foldlM (rq.markActive fuel)
      active.runqBuild = .ok runqBuild) :
    rq.markTarget fuel active target =
      .ok ⟨runqBuild, active.targetTids ++ [target.tid]⟩ := by
  rw [selection, found] at marked
  have isKnown : ¬ ¬ taskData.taskentries.contains target.tid := by
    rw [Dict.contains_iff]
    exact not_not_intro isTask
  simp only [if_neg (not_not_intro considered)] at marked
  obtain ⟨isBuilt, notFailed, notFailedFn⟩ := considered
  rw [markTarget, found]
  simp only [if_neg isBuilt, if_neg notFailed, if_neg notFailedFn]
  refine (if_neg isKnown).trans ?_
  by_cases parents : target.Parents
  · rw [if_pos parents] at marked
    refine (if_pos parents).trans ?_
    change (do
      let depends ← rq.dependsOf target.tid
      let runqBuild ← depends.foldlM (rq.markActive fuel) active.runqBuild
      return (⟨runqBuild, active.targetTids ++ [target.tid]⟩ : Active)) = _
    rw [dependsOf_eq inside]
    change (do
      let runqBuild ← (rq.depends target.tid).foldlM (rq.markActive fuel)
        active.runqBuild
      return (⟨runqBuild, active.targetTids ++ [target.tid]⟩ : Active)) = _
    rw [marked]
    rfl
  · rw [if_neg parents, List.foldlM_cons] at marked
    refine (if_neg parents).trans ?_
    change (do
      let runqBuild ← rq.markActive fuel active.runqBuild target.tid
      return (⟨runqBuild, active.targetTids ++ [target.tid]⟩ : Active)) = _
    cases one : rq.markActive fuel active.runqBuild target.tid with
    | error error =>
        rw [one] at marked
        cases marked
    | ok build =>
        rw [one] at marked
        cases marked
        rfl

end Target

section Marking

variable {fuel : ℕ} (resolved : rq.Resolved)
  (enough : rq.runtaskentries.length < fuel)

include resolved enough

theorem markActive_marks {runqBuild : List Tid} {tid : Tid}
    (before : ∀ tid ∈ runqBuild, tid ∈ rq.runtaskentries.keys)
    (member : tid ∈ rq.runtaskentries.keys) :
    ∃ marked, rq.markActive fuel runqBuild tid = .ok marked ∧
      Marks rq.depends [tid] runqBuild marked := by
  apply mark_marks (fun item inside => dependsOf_eq inside) resolved.closed
    before member
  have shorter := List.length_filter_le (· ∉ runqBuild) rq.runtaskentries.keys
  rw [Dict.keys, List.length_map] at shorter
  exact shorter.trans_lt enough

theorem markEach_marks {runqBuild pending : List Tid}
    (before : ∀ tid ∈ runqBuild, tid ∈ rq.runtaskentries.keys)
    (within : ∀ tid ∈ pending, tid ∈ rq.runtaskentries.keys) :
    ∃ marked, pending.foldlM (rq.markActive fuel) runqBuild = .ok marked ∧
      Marks rq.depends pending runqBuild marked := by
  have loop : ∃ marked, pending.foldlM (rq.markActive fuel) runqBuild =
      .ok marked ∧
      Marks rq.depends (pending.flatMap fun tid => [tid]) runqBuild marked := by
    apply foldlM_marks (fun tid => [tid]) resolved.closed before
      (by simpa using within)
    intro tid member now _ inside
    exact markActive_marks resolved enough inside (within tid member)
  rwa [List.flatMap_singleton'] at loop

theorem markTarget_cases {active : Active} {target : Target}
    (before : ∀ tid ∈ active.runqBuild, tid ∈ rq.runtaskentries.keys)
    (known : ∃ taskData, rq.taskData.get? target.mc = some taskData ∧
      ∀ tid ∈ taskData.taskentries.keys, tid ∈ rq.runtaskentries.keys) :
    (rq.Missing target ∧ ∃ task, rq.markTarget fuel active target =
      .error (.noTask task target.target target.tid)) ∨
    (¬ rq.Missing target ∧
      (∀ tid ∈ rq.selection target, tid ∈ rq.runtaskentries.keys) ∧
      ∃ marked, rq.markTarget fuel active target = .ok marked ∧
        Marks rq.depends (rq.selection target) active.runqBuild
          marked.runqBuild) := by
  obtain ⟨taskData, found, hasEntries⟩ := known
  rw [missing_iff found]
  by_cases considered : target.Considered taskData
  · by_cases isTask : target.tid ∈ taskData.taskentries.keys
    · right
      have inside := hasEntries _ isTask
      have within : ∀ tid ∈ rq.selection target, tid ∈
          rq.runtaskentries.keys := by
        rw [selection, found]
        simp only [if_neg (not_not_intro considered)]
        split_ifs with parents
        · exact resolved.closed _ inside
        · simpa using inside
      obtain ⟨runqBuild, marked, marks⟩ :=
        markEach_marks resolved enough before within
      exact ⟨fun missing => missing.2 isTask, within, _,
        markTarget_of_task found considered isTask inside marked, marks⟩
    · exact .inl ⟨⟨considered, isTask⟩, markTarget_of_missing found considered
        isTask⟩
  · obtain ⟨passed, none⟩ := markTarget_of_not_considered found considered
    refine .inr ⟨fun missing => considered missing.1, ?_, active, passed, ?_⟩
    · simp [none]
    · rw [none]
      exact .nil

theorem markTargets_cases {active : Active} {targets : List Target}
    (before : ∀ tid ∈ active.runqBuild, tid ∈ rq.runtaskentries.keys)
    (known : ∀ target ∈ targets, ∃ taskData, rq.taskData.get? target.mc =
      some taskData ∧
      ∀ tid ∈ taskData.taskentries.keys, tid ∈ rq.runtaskentries.keys) :
    (∃ target ∈ targets, rq.Missing target ∧ ∃ task,
      targets.foldlM (rq.markTarget fuel) active =
        .error (.noTask task target.target target.tid)) ∨
    ((∀ target ∈ targets, ¬ rq.Missing target) ∧
      (∀ target ∈ targets, ∀ tid ∈ rq.selection target, tid ∈
        rq.runtaskentries.keys) ∧
      ∃ marked, targets.foldlM (rq.markTarget fuel) active = .ok marked ∧
        Marks rq.depends (targets.flatMap rq.selection) active.runqBuild
          marked.runqBuild) := by
  induction targets generalizing active with
  | nil => exact .inr ⟨by simp, by simp, active, rfl, .nil⟩
  | cons target rest induction =>
      rcases markTarget_cases resolved enough before
        (known target List.mem_cons_self) with
        ⟨missing, task, failed⟩ | ⟨isTask, within, now, marked, marks⟩
      · left
        refine ⟨target, List.mem_cons_self, missing, task, ?_⟩
        rw [List.foldlM_cons, failed]
        rfl
      · have loop : (target :: rest).foldlM (rq.markTarget fuel) active =
            rest.foldlM (rq.markTarget fuel) now := by
          rw [List.foldlM_cons, marked]
          rfl
        rw [loop]
        rcases induction (marks.inside resolved.closed before within)
            (fun other member =>
              known other (List.mem_cons_of_mem _ member)) with
          ⟨other, member, missing, failed⟩ | ⟨areTasks, allWithin, last, folded,
            more⟩
        · exact .inl ⟨other, List.mem_cons_of_mem _ member, missing, failed⟩
        · right
          refine ⟨?_, ?_, last, folded, ?_⟩
          · exact List.forall_mem_cons.mpr ⟨isTask, areTasks⟩
          · exact List.forall_mem_cons.mpr ⟨within, allWithin⟩
          · rw [List.flatMap_cons]
            exact marks.append more

theorem runallTask_marks (reducedTasklist : List Tid)
    {state : List Tid × Active} (task : Text)
    (before : ∀ tid ∈ state.2.runqBuild, tid ∈ rq.runtaskentries.keys)
    (within : ∀ tid ∈ state.1, tid ∈ rq.runtaskentries.keys) :
    ∃ state', rq.runallTask fuel reducedTasklist state task = .ok state' ∧
      (∀ tid, tid ∈ state'.1 ↔
        tid ∈ state.1 ∨ tid ∈ rq.wanted [task] {tid | tid ∈ reducedTasklist}) ∧
      Marks rq.depends state'.1 state.2.runqBuild state'.2.runqBuild := by
  let wanted :=
    (reducedTasklist.map fun tid => Tid.of (fnFromTid tid) (doTask task)).filter
    fun wanttid => rq.runtaskentries.contains wanttid
  have mem_wanted : ∀ tid, tid ∈ (state.1 ++ wanted).dedup ↔
      tid ∈ state.1 ∨ tid ∈ rq.wanted [task] {tid | tid ∈ reducedTasklist} := by
    intro tid
    simp only [wanted, RunQueueData.wanted, List.mem_dedup, List.mem_append,
      List.mem_filter,
      List.mem_map, Dict.contains_iff, Set.mem_ofPred_eq, List.mem_singleton,
      exists_eq_left]
    apply or_congr_right
    constructor
    · rintro ⟨⟨first, member, rfl⟩, isEntry⟩
      exact ⟨isEntry, first, member, rfl⟩
    · rintro ⟨isEntry, first, member, rfl⟩
      exact ⟨⟨first, member, rfl⟩, isEntry⟩
  have allWithin : ∀ tid ∈ (state.1 ++ wanted).dedup, tid ∈
      rq.runtaskentries.keys := by
    intro tid member
    rcases (mem_wanted tid).mp member with old | new
    · exact within tid old
    · exact new.1
  obtain ⟨runqBuild, folded, marks⟩ :=
    markEach_marks resolved enough before allWithin
  refine ⟨((state.1 ++ wanted).dedup, ⟨runqBuild,
    state.2.targetTids ++ (state.1 ++ wanted).dedup⟩), ?_, mem_wanted, marks⟩
  rw [runallTask]
  change ((state.1 ++ wanted).dedup.foldlM (rq.markActive fuel)
    state.2.runqBuild >>= _) = _
  rw [folded]
  rfl

theorem runallTasks_marks (reducedTasklist : List Tid)
    {state : List Tid × Active} {tasks : List Text}
    (before : ∀ tid ∈ state.2.runqBuild, tid ∈ rq.runtaskentries.keys)
    (within : ∀ tid ∈ state.1, tid ∈ rq.runtaskentries.keys) :
    ∃ state', tasks.foldlM (rq.runallTask fuel reducedTasklist) state =
      .ok state' ∧ (∀ tid, tid ∈ state'.1 ↔
        tid ∈ state.1 ∨ tid ∈ rq.wanted tasks {tid | tid ∈ reducedTasklist}) ∧
      ∀ begun, Marks rq.depends state.1 begun state.2.runqBuild →
        Marks rq.depends state'.1 begun state'.2.runqBuild := by
  induction tasks generalizing state with
  | nil => exact ⟨state, rfl, by simp [wanted], fun _ => id⟩
  | cons task rest induction =>
      obtain ⟨now, ran, mem_now, marks⟩ :=
        runallTask_marks resolved enough reducedTasklist task before within
      have nowWithin : ∀ tid ∈ now.1, tid ∈ rq.runtaskentries.keys := by
        intro tid member
        rcases (mem_now tid).mp member with old | new
        · exact within tid old
        · exact new.1
      obtain ⟨last, folded, mem_last, more⟩ :=
        induction (marks.inside resolved.closed before nowWithin) nowWithin
      refine ⟨last, ?_, ?_, ?_⟩
      · rw [List.foldlM_cons, ran]
        exact folded
      · intro tid
        rw [mem_last, mem_now]
        simp only [wanted, Set.mem_ofPred_eq, List.mem_cons]
        grind
      · intro begun first
        exact more begun (first.absorb marks fun tid member =>
          (mem_now tid).mpr (.inl member))

/-- Where the rounds of `--runall` stand: `orig` are the tasks of the last
round. -/
structure Rounds (rq : RunQueueData) (runall : List Text) (active : Set Tid)
    (orig runqBuild : List Tid) : Prop where
  inside : ∀ tid ∈ runqBuild, tid ∈ rq.runtaskentries.keys
  grows : ∀ tid ∈ orig, tid ∈ rq.wanted runall {tid | tid ∈ runqBuild}
  begun : rq.wanted runall active ⊆ rq.wanted runall {tid | tid ∈ runqBuild}
  below : ∀ tids, rq.Closed tids → rq.wanted runall active ⊆ tids →
    rq.wanted runall tids ⊆ tids →
    rq.wanted runall {tid | tid ∈ runqBuild} ⊆ tids
  marks : orig = [] ∨ Marks rq.depends orig [] runqBuild

omit resolved enough in
theorem wanted_mono {tasks : List Text} {tids more : Set Tid}
    (within : tids ⊆ more) : rq.wanted tasks tids ⊆ rq.wanted tasks more := by
  rintro wanttid ⟨isEntry, task, member, tid, inside, same⟩
  exact ⟨isEntry, task, member, tid, within inside, same⟩

/-- The tasks wanted of a recipe are tasks of that recipe. -/
def Apart (rq : RunQueueData) (tasks : List Text) : Prop :=
  ∀ tid ∈ rq.runtaskentries.keys, ∀ task ∈ tasks,
    Tid.of (fnFromTid tid) (doTask task) ∈ rq.runtaskentries.keys →
      fnFromTid (Tid.of (fnFromTid tid) (doTask task)) = fnFromTid tid

theorem runallLoop_isLeast {runall : List Text} (apart : Apart rq runall)
    {active : Set Tid} {rounds : ℕ} {orig : List Tid} {state : Active}
    (stands : Rounds rq runall active orig state.runqBuild)
    (left : (rq.runtaskentries.keys.filter (· ∉ orig)).length < rounds) :
    ∃ marked, rq.runallLoop fuel runall rounds orig state = .ok marked ∧
      (∀ tid ∈ marked.runqBuild, tid ∈ rq.runtaskentries.keys) ∧
      IsLeast {tids | rq.Closed tids ∧ rq.wanted runall active ⊆ tids ∧
        rq.wanted runall tids ⊆ tids} {tid | tid ∈ marked.runqBuild} := by
  induction rounds generalizing orig state with
  | zero => omega
  | succ rounds induction =>
      have reduced : ∀ tid, tid ∈
          rq.runtaskentries.keys.filter (· ∈ state.runqBuild) ↔
          tid ∈ state.runqBuild := by
        intro tid
        rw [List.mem_filter, decide_eq_true_eq, and_iff_right_iff_imp]
        exact stands.inside tid
      have nothing : ∀ tid ∈ ([] : List Tid), tid ∈ rq.runtaskentries.keys := by
        simp
      obtain ⟨now, ran, mem_now, marked⟩ :=
        @runallTasks_marks rq fuel resolved enough
        (rq.runtaskentries.keys.filter (· ∈ state.runqBuild))
        ([], { state with runqBuild := [] }) runall nothing nothing
      simp only [reduced, List.not_mem_nil, false_or] at mem_now
      have marks := marked [] .nil
      have nowInside : ∀ tid ∈ now.1, tid ∈ rq.runtaskentries.keys :=
        fun tid member => ((mem_now tid).mp member).1
      have inside := marks.inside resolved.closed (by simp) nowInside
      have loop : rq.runallLoop fuel runall (rounds + 1) orig state =
          if ∃ tid ∈ now.1, tid ∉ orig then
            rq.runallLoop fuel runall rounds now.1 now.2
          else .ok now.2 := by
        rw [runallLoop, ran]
        rfl
      have again : ∀ tid ∈ now.1, tid ∈
          rq.wanted runall {tid | tid ∈ now.2.runqBuild} := by
        intro tid member
        obtain ⟨isEntry, task, isTask, first, isFirst, rfl⟩ :=
          (mem_now tid).mp member
        refine ⟨isEntry, task, isTask, _, marks.begun _ member, ?_⟩
        rw [apart first (stands.inside first isFirst) task isTask isEntry]
      rw [loop]
      split_ifs with added
      · obtain ⟨tid, member, isNew⟩ := added
        apply induction
        · constructor
          · exact inside
          · exact again
          · intro tid isBegun
            exact again tid ((mem_now tid).mpr (stands.begun isBegun))
          · intro tids closed holds keeps
            refine Set.Subset.trans (wanted_mono ?_) keeps
            have least := isLeast_of_marks marks fun tid => (mem_now tid).symm
            exact least.2 ⟨closed, stands.below tids closed holds keeps⟩
          · exact .inr marks
        · apply (length_filter_notMem_lt ?_ (nowInside tid member) isNew
            member).trans_le
          · exact Nat.lt_succ_iff.mp left
          · exact fun old isOld => (mem_now old).mpr (stands.grows old isOld)
      · have noneNew : ∀ tid ∈ now.1, tid ∈ orig := by simpa using added
        have settled : {tid | tid ∈ now.2.runqBuild} ⊆
            {tid | tid ∈ state.runqBuild} := by
          intro tid member
          rcases marks.reached tid member with none | ⟨first, isFirst, path⟩
          · cases none
          · rcases stands.marks with empty | before
            · have isOld := noneNew first isFirst
              rw [empty] at isOld
              cases isOld
            · exact (before.mem_iff (by simp)).mpr
                (.inr ⟨first, noneNew first isFirst, path⟩)
        have isLeast := isLeast_of_marks marks fun tid => (mem_now tid).symm
        refine ⟨now.2, rfl, inside, ⟨isLeast.1.1, ?_, ?_⟩, ?_⟩
        · exact stands.begun.trans isLeast.1.2
        · exact (wanted_mono settled).trans isLeast.1.2
        · intro tids holds
          exact isLeast.2
            ⟨holds.1, stands.below tids holds.1 holds.2.1 holds.2.2⟩

end Marking

variable {runqBuild : List Tid}

@[simp] theorem mem_keys_keep {tid : Tid} :
    tid ∈ (rq.keep runqBuild).runtaskentries.keys ↔
      tid ∈ rq.runtaskentries.keys ∧ tid ∈ runqBuild := by
  simp only [keep, Dict.keys, List.mem_map, List.mem_filter, decide_eq_true_eq]
  constructor
  · rintro ⟨entry, ⟨member, kept⟩, rfl⟩
    exact ⟨⟨entry, member, rfl⟩, kept⟩
  · rintro ⟨⟨entry, member, rfl⟩, kept⟩
    exact ⟨entry, ⟨member, kept⟩, rfl⟩

theorem depends_keep {tid : Tid} (member : tid ∈ runqBuild) :
    (rq.keep runqBuild).depends tid = rq.depends tid := by
  simp only [depends, keep]
  rw [Dict.get?_filter rq.runtaskentries (fun tid => decide (tid ∈ runqBuild)),
    if_pos (decide_eq_true member)]

theorem revdeps_keep (fresh : ∀ tid, rq.revdeps tid = []) (tid : Tid) :
    (rq.keep runqBuild).revdeps tid = [] := by
  simp only [revdeps, keep]
  rw [Dict.get?_filter rq.runtaskentries (fun tid => decide (tid ∈ runqBuild))]
  split_ifs
  · exact fresh tid
  · rfl

theorem Resolved.keep (resolved : rq.Resolved)
    (closed : rq.Closed {tid | tid ∈ runqBuild}) :
    (rq.keep runqBuild).Resolved := by
  constructor
  · exact List.Nodup.sublist (List.Sublist.map _ List.filter_sublist)
      resolved.unique
  · intro tid member dep step
    obtain ⟨isEntry, kept⟩ := mem_keys_keep.mp member
    rw [depends_keep kept] at step
    exact mem_keys_keep.mpr ⟨resolved.closed tid isEntry dep step,
      closed tid kept dep step⟩
  · exact revdeps_keep resolved.fresh

def named (tasks : List Text) (tids : Set Tid) : Set Tid :=
  {tid | tid ∈ tids ∧ ∃ task ∈ tasks, tasknameFromTid tid = doTask task}

theorem runonly_isLeast {fuel : ℕ} (resolved : rq.Resolved)
    (enough : rq.runtaskentries.length < fuel) (runonly : List Text) :
    ∃ runqBuild, runonly.foldlM (rq.runonlyTask fuel) [] = .ok runqBuild ∧
      (∀ tid ∈ runqBuild, tid ∈ rq.runtaskentries.keys) ∧
      IsLeast {tids | rq.Closed tids ∧
        named runonly {tid | tid ∈ rq.runtaskentries.keys} ⊆ tids} {tid | tid ∈
          runqBuild} := by
  let chosen : Text → List Tid := fun task =>
    rq.runtaskentries.keys.filter fun tid => tasknameFromTid tid = doTask task
  have within : ∀ task ∈ runonly, ∀ tid ∈ chosen task, tid ∈
      rq.runtaskentries.keys :=
    fun task _ tid member => (List.mem_filter.mp member).1
  have loop : ∃ runqBuild, runonly.foldlM (rq.runonlyTask fuel) [] =
      .ok runqBuild ∧
      Marks rq.depends (runonly.flatMap chosen) [] runqBuild := by
    apply foldlM_marks chosen resolved.closed (by simp) within
    intro task isTask now _ inside
    exact markEach_marks resolved enough inside (within task isTask)
  obtain ⟨runqBuild, folded, marks⟩ := loop
  refine ⟨runqBuild, folded, ?_, isLeast_of_marks marks ?_⟩
  · apply marks.inside resolved.closed (by simp)
    intro tid member
    obtain ⟨task, isTask, isChosen⟩ := List.mem_flatMap.mp member
    exact within task isTask tid isChosen
  · intro tid
    simp only [named, chosen, Set.mem_ofPred_eq, List.mem_flatMap,
      List.mem_filter, decide_eq_true_eq]
    grind

/-- The result has the same entries and these reverse dependencies besides. -/
structure Reversed (rq rq' : RunQueueData) (edges : List (Tid × Tid)) :
    Prop where
  keys : ∀ tid, tid ∈ rq'.runtaskentries.keys ↔ tid ∈ rq.runtaskentries.keys
  depends : ∀ tid, rq'.depends tid = rq.depends tid
  revdeps : ∀ tid other, other ∈ rq'.revdeps tid ↔ other ∈ rq.revdeps tid ∨
    (other, tid) ∈ edges

theorem addRevdep_reversed {edge : Tid × Tid}
    (member : edge.2 ∈ rq.runtaskentries.keys) :
    ∃ rq', rq.addRevdep edge = .ok rq' ∧ Reversed rq rq' [edge] := by
  obtain ⟨entry, found⟩ :=
    Option.ne_none_iff_exists'.mp (Dict.get?_ne_none_iff.mpr member)
  rw [addRevdep, found]
  refine ⟨_, rfl, ?_, ?_, ?_⟩
  · intro tid
    rw [Dict.mem_keys_set]
    constructor
    · rintro (rfl | old)
      · exact member
      · exact old
    · exact .inr
  · intro tid
    rw [depends, depends, Dict.get?_set]
    split_ifs with same
    · rw [same, found]
      rfl
    · rfl
  · intro tid other
    rw [revdeps, revdeps, Dict.get?_set]
    split_ifs with same
    · subst same
      obtain ⟨first, second⟩ := edge
      rw [found]
      change other ∈ List.insert first entry.revdeps ↔ other ∈ entry.revdeps ∨ _
      rw [List.mem_insert_iff]
      simp [or_comm]
    · simp [Prod.ext_iff, same]

theorem addRevdeps_reversed {edges : List (Tid × Tid)}
    (within : ∀ edge ∈ edges, edge.2 ∈ rq.runtaskentries.keys) :
    ∃ rq', edges.foldlM addRevdep rq = .ok rq' ∧ Reversed rq rq' edges := by
  induction edges generalizing rq with
  | nil => exact ⟨rq, rfl, by simp, by simp, by simp⟩
  | cons edge rest induction =>
      obtain ⟨now, added, first⟩ :=
        addRevdep_reversed (within edge List.mem_cons_self)
      obtain ⟨last, folded, later⟩ := @induction now fun other member =>
        (first.keys _).mpr (within other (List.mem_cons_of_mem _ member))
      refine ⟨last, ?_, ?_, ?_, ?_⟩
      · rw [List.foldlM_cons, added]
        exact folded
      · exact fun tid => (later.keys tid).trans (first.keys tid)
      · exact fun tid => (later.depends tid).trans (first.depends tid)
      · intro tid other
        rw [later.revdeps, first.revdeps, List.mem_singleton, List.mem_cons,
          or_assoc]

theorem mem_edges (unique : rq.runtaskentries.keys.Nodup) {tid dep : Tid} :
    (tid, dep) ∈ (rq.runtaskentries.flatMap fun entry =>
      entry.2.depends.map fun dep => (entry.1, dep)) ↔
        dep ∈ rq.depends tid := by
  simp only [List.mem_flatMap, List.mem_map, Prod.mk.injEq,
    exists_eq_right_right, depends]
  constructor
  · rintro ⟨entry, member, step, rfl⟩
    rw [Dict.get?_of_mem unique member]
    exact step
  · intro step
    cases found : rq.runtaskentries.get? tid with
    | none => simp [found] at step
    | some entry =>
        rw [found] at step
        exact ⟨(tid, entry), Dict.mem_of_get? found, step, rfl⟩

/-- The pruned graph has the tasks of `kept`, what they depend on is kept and
the reverse dependencies are the same edges. -/
structure Pruned (rq rq' : RunQueueData) (kept : Set Tid) : Prop where
  keys : ∀ tid, tid ∈ rq'.runtaskentries.keys ↔ tid ∈ kept
  depends : ∀ tid ∈ kept, rq'.depends tid = rq.depends tid
  closed : ∀ tid ∈ kept, ∀ dep ∈ rq'.depends tid, dep ∈ kept
  revdeps : ∀ tid ∈ kept, ∀ other,
    other ∈ rq'.revdeps tid ↔ other ∈ kept ∧ tid ∈ rq'.depends other

theorem Resolved.addRevdeps (resolved : rq.Resolved) :
    ∃ rq', rq.addRevdeps = .ok rq' ∧
      Pruned rq rq' {tid | tid ∈ rq.runtaskentries.keys} := by
  have isEntry : ∀ tid dep, dep ∈ rq.depends tid →
      tid ∈ rq.runtaskentries.keys := by
    intro tid dep step
    by_contra missing
    rw [← Dict.get?_ne_none_iff, not_not] at missing
    rw [depends, missing] at step
    cases step
  obtain ⟨rq', added, reversed⟩ := @addRevdeps_reversed rq
    (rq.runtaskentries.flatMap fun entry => entry.2.depends.map fun dep =>
      (entry.1, dep))
    fun edge member =>
      have step := (mem_edges resolved.unique).mp member
      resolved.closed _ (isEntry _ _ step) _ step
  refine ⟨rq', added, reversed.keys, fun tid _ => reversed.depends tid, ?_, ?_⟩
  · intro tid member dep step
    rw [reversed.depends] at step
    exact resolved.closed tid member dep step
  · intro tid _ other
    rw [reversed.revdeps, resolved.fresh, reversed.depends,
      mem_edges resolved.unique]
    simp only [List.not_mem_nil, false_or, Set.mem_ofPred_eq]
    exact (and_iff_right_of_imp (isEntry other tid)).symm

theorem Pruned.of_keep {rq' : RunQueueData} {kept : Set Tid}
    (pruned : Pruned (rq.keep runqBuild) rq' kept)
    (within : ∀ tid ∈ kept, tid ∈ runqBuild) :
    Pruned rq rq' kept :=
  ⟨pruned.keys, fun tid member =>
    (pruned.depends tid member).trans (depends_keep (within tid member)),
    pruned.closed, pruned.revdeps⟩

theorem isLeast_of_keep (closed : rq.Closed {tid | tid ∈ runqBuild})
    {selected kept : Set Tid} (within : selected ⊆ {tid | tid ∈ runqBuild})
    (isLeast : IsLeast {tids | (rq.keep runqBuild).Closed tids ∧
      selected ⊆ tids} kept) :
    IsLeast {tids | rq.Closed tids ∧ selected ⊆ tids} kept := by
  have steps : ∀ tid, ∀ dep ∈ (rq.keep runqBuild).depends tid, dep ∈
      rq.depends tid := by
    intro tid dep step
    by_cases member : tid ∈ runqBuild
    · rwa [depends_keep member] at step
    · rw [depends, keep, Dict.get?_filter rq.runtaskentries
        (fun tid => decide (tid ∈ runqBuild)),
        if_neg (by simpa using member)] at step
      cases step
  have below : kept ⊆ {tid | tid ∈ runqBuild} :=
    isLeast.2 ⟨fun tid member dep step =>
      closed tid member dep (steps tid dep step), within⟩
  constructor
  · refine ⟨fun tid member dep step => isLeast.1.1 tid member dep ?_,
      isLeast.1.2⟩
    rwa [depends_keep (below member)]
  · exact fun tids holds => isLeast.2
      ⟨fun tid member dep step => holds.1 tid member dep (steps tid dep step),
        holds.2⟩

theorem entries_eq_nil_iff :
    rq.runtaskentries = [] ↔
      {tid | tid ∈ rq.runtaskentries.keys} = (∅ : Set Tid) := by
  rw [Set.eq_empty_iff_forall_notMem]
  cases rq.runtaskentries with
  | nil => simp [Dict.keys]
  | cons entry rest =>
      simp only [reduceCtorEq, false_iff, not_forall, not_not]
      exact ⟨entry.1, List.mem_cons_self⟩

/-- Steps B and `--runall`. -/
theorem markAll_cases {fuel : ℕ} (resolved : rq.Resolved)
    (enough : rq.runtaskentries.length < fuel)
    (known : rq.TargetsKnown) {runall : List Text} (apart : Apart rq runall) :
    (∃ target ∈ rq.targets, rq.Missing target ∧ ∃ task,
      rq.markAll fuel runall = .error (.noTask task target.target target.tid)) ∨
    ((∀ target ∈ rq.targets, ¬ rq.Missing target) ∧ ∃ active : Set Tid,
      ∃ marked, rq.markAll fuel runall = .ok marked ∧
      (∀ tid ∈ marked.runqBuild, tid ∈ rq.runtaskentries.keys) ∧
      IsLeast {tids | rq.Closed tids ∧ rq.targeted ⊆ tids} active ∧
      if runall = [] then {tid | tid ∈ marked.runqBuild} = active
      else IsLeast {tids | rq.Closed tids ∧ rq.wanted runall active ⊆ tids ∧
        rq.wanted runall tids ⊆ tids} {tid | tid ∈ marked.runqBuild}) := by
  have nothing : ∀ tid ∈ ([] : List Tid), tid ∈ rq.runtaskentries.keys := by
    simp
  rw [markAll]
  rcases @markTargets_cases rq fuel resolved enough ⟨[], []⟩ rq.targets nothing
    known with
    ⟨target, member, missing, task, failed⟩ | ⟨areTasks, within, marked, ran,
      marks⟩
  · left
    refine ⟨target, member, missing, task, ?_⟩
    rw [failed]
    rfl
  · right
    have inside : ∀ tid ∈ marked.runqBuild, tid ∈ rq.runtaskentries.keys := by
      apply marks.inside resolved.closed nothing
      intro tid member
      obtain ⟨target, isTarget, selected⟩ := List.mem_flatMap.mp member
      exact within target isTarget tid selected
    have isLeast : IsLeast {tids | rq.Closed tids ∧ rq.targeted ⊆ tids}
        {tid | tid ∈ marked.runqBuild} :=
      isLeast_of_marks marks fun tid => List.mem_flatMap.symm
    have stands : Rounds rq runall {tid | tid ∈ marked.runqBuild} []
        marked.runqBuild :=
      ⟨inside, by simp, Set.Subset.rfl, fun _ _ holds _ => holds, .inl rfl⟩
    have left : (rq.runtaskentries.keys.filter (· ∉ ([] : List Tid))).length <
        fuel := by
      simpa [Dict.keys] using enough
    obtain ⟨last, looped, lastInside, lastLeast⟩ :=
      runallLoop_isLeast resolved enough apart stands left
    refine ⟨areTasks, {tid | tid ∈ marked.runqBuild}, ?_⟩
    rw [ran]
    by_cases none : runall = []
    · simp only [if_pos none]
      exact ⟨marked, rfl, inside, isLeast, rfl⟩
    · simp only [if_neg none]
      exact ⟨last, looped, lastInside, isLeast, lastLeast⟩

/-- `--runonly`. -/
theorem keepOnly_cases {fuel : ℕ} (resolved : rq.Resolved)
    (enough : rq.runtaskentries.length < fuel) (runonly : List Text) :
    ∃ kept : Set Tid,
      (if runonly = [] then kept = {tid | tid ∈ rq.runtaskentries.keys}
        else IsLeast {tids | rq.Closed tids ∧
          named runonly {tid | tid ∈ rq.runtaskentries.keys} ⊆ tids} kept) ∧
      ((kept = ∅ ∧ rq.keepOnly fuel runonly = .error (.noRunonly runonly)) ∨
        ∃ rest, rq.keepOnly fuel runonly = .ok rest ∧ rest.Resolved ∧
          kept = {tid | tid ∈ rest.runtaskentries.keys} ∧
          ∀ rq', Pruned rest rq' kept → Pruned rq rq' kept) := by
  rw [keepOnly]
  by_cases none : runonly = []
  · simp only [if_pos none]
    exact ⟨_, rfl, .inr ⟨rq, rfl, resolved, rfl, fun _ => id⟩⟩
  · obtain ⟨runqBuild, ran, inside, isLeast⟩ :=
      runonly_isLeast resolved enough runonly
    have isKept : {tid | tid ∈ runqBuild} =
        {tid | tid ∈ (rq.keep runqBuild).runtaskentries.keys} := by
      ext tid
      simp only [Set.mem_ofPred_eq, mem_keys_keep]
      exact (and_iff_right_of_imp (inside tid)).symm
    simp only [if_neg none, ran]
    refine ⟨{tid | tid ∈ runqBuild}, isLeast, ?_⟩
    by_cases empty : (rq.keep runqBuild).runtaskentries = []
    · left
      refine ⟨isKept.trans (entries_eq_nil_iff.mp empty), if_pos empty⟩
    · right
      exact ⟨_, if_neg empty, resolved.keep isLeast.1.1, isKept,
        fun rq' pruned => pruned.of_keep fun tid member => member⟩

/-- Steps B and C keep the least closed set of what is selected. -/
theorem prune_keeps_least (resolved : rq.Resolved) (known : rq.TargetsKnown)
    (configuration : Configuration) (apart : Apart rq configuration.runall)
    {fuel : ℕ}
    (enough : rq.runtaskentries.length < fuel) :
    (∃ target ∈ rq.targets, rq.Missing target ∧ ∃ task,
      rq.prune fuel configuration =
        .error (.noTask task target.target target.tid)) ∨
    ((∀ target ∈ rq.targets, ¬ rq.Missing target) ∧ ∃ active all kept : Set Tid,
      IsLeast {tids | rq.Closed tids ∧ rq.targeted ⊆ tids} active ∧
      (if configuration.runall = [] then all = active
        else IsLeast
          {tids | rq.Closed tids ∧
            rq.wanted configuration.runall active ⊆ tids ∧
          rq.wanted configuration.runall tids ⊆ tids} all) ∧
      (if configuration.runonly = [] then kept = all
        else IsLeast
          {tids | rq.Closed tids ∧ named configuration.runonly all ⊆ tids}
            kept) ∧
      ((kept = ∅ ∧
        (rq.prune fuel configuration = .error (.noRunall configuration.runall) ∨
          rq.prune fuel configuration =
            .error (.noRunonly configuration.runonly) ∨
          rq.prune fuel configuration = .error .noActive)) ∨
        (kept ≠ ∅ ∧ ∃ rq', rq.prune fuel configuration = .ok rq' ∧
          Pruned rq rq' kept))) := by
  rcases markAll_cases resolved enough known apart with
    ⟨target, member, missing, task, failed⟩ |
      ⟨areTasks, active, marked, ran, inside, isActive, isAll⟩
  · left
    refine ⟨target, member, missing, task, ?_⟩
    rw [prune, failed]
    rfl
  · right
    have allClosed : rq.Closed {tid | tid ∈ marked.runqBuild} := by
      split_ifs at isAll
      · exact isAll ▸ isActive.1.1
      · exact isAll.1.1
    let rest : RunQueueData := { rq.keep marked.runqBuild with
        targetTids := marked.targetTids }
    have restResolved : rest.Resolved :=
      ⟨(resolved.keep allClosed).unique, (resolved.keep allClosed).closed,
        (resolved.keep allClosed).fresh⟩
    have isRest : {tid | tid ∈ rest.runtaskentries.keys} =
        {tid | tid ∈ marked.runqBuild} := by
      ext tid
      exact mem_keys_keep.trans (and_iff_right_of_imp (inside tid))
    have stillEnough : rest.runtaskentries.length < fuel :=
      (List.length_filter_le ..).trans_lt enough
    obtain ⟨kept, isKept, outcome⟩ :=
      keepOnly_cases restResolved stillEnough configuration.runonly
    have chosen :
        (if configuration.runonly = [] then kept =
          {tid | tid ∈ marked.runqBuild}
        else IsLeast {tids | rq.Closed tids ∧
          named configuration.runonly {tid | tid ∈ marked.runqBuild} ⊆ tids}
            kept) ∧
        kept ⊆ {tid | tid ∈ marked.runqBuild} := by
      rw [isRest] at isKept
      split_ifs at isKept ⊢
      · exact ⟨isKept, isKept.subset⟩
      · have least :=
          isLeast_of_keep allClosed (fun tid member => member.1) isKept
        exact ⟨least, least.2 ⟨allClosed, fun tid member => member.1⟩⟩
    have prune_eq : rq.prune fuel configuration =
        if configuration.runall ≠ [] ∧ rest.runtaskentries = [] then
          .error (.noRunall configuration.runall)
        else (rest.keepOnly fuel configuration.runonly).bind fun last =>
          if last.runtaskentries = [] then .error .noActive
          else last.addRevdeps := by
      rw [prune, ran]
      rfl
    refine ⟨areTasks, active, _, kept, isActive, isAll, chosen.1, ?_⟩
    rw [prune_eq]
    by_cases noneAll : configuration.runall ≠ [] ∧ rest.runtaskentries = []
    · left
      have empty := entries_eq_nil_iff.mp noneAll.2
      rw [isRest] at empty
      exact ⟨Set.subset_eq_empty chosen.2 empty, .inl (if_pos noneAll)⟩
    · rw [if_neg noneAll]
      rcases outcome with ⟨empty, failed⟩ |
        ⟨last, kept, lastResolved, isLast, prunes⟩
      · left
        refine ⟨empty, .inr (.inl ?_)⟩
        rw [failed]
        rfl
      · rw [kept, Except.bind]
        by_cases none : last.runtaskentries = []
        · exact .inl ⟨isLast.trans (entries_eq_nil_iff.mp none),
            .inr (.inr (if_pos none))⟩
        · right
          obtain ⟨rq', added, pruned⟩ := lastResolved.addRevdeps
          rw [← isLast] at pruned
          refine ⟨fun empty => none ?_, rq', (if_neg none).trans added, ?_⟩
          · rw [entries_eq_nil_iff, ← isLast, empty]
          · have prunedRest := prunes rq' pruned
            have prunedKeep : Pruned (rq.keep marked.runqBuild) rq' _ :=
              ⟨prunedRest.keys, prunedRest.depends, prunedRest.closed,
                prunedRest.revdeps⟩
            exact prunedKeep.of_keep fun tid member => chosen.2 member

end RunQueueData

namespace Colons

def lowerA : Tid := ⟨"a.bb".toList, "do_y".toList, by decide⟩

def lowerC : Tid := ⟨"c.bb".toList, "do_y".toList, by decide⟩

def upperA : Tid := ⟨"a.bb:do_x.bb".toList, "do_t".toList, by decide⟩

def upperC : Tid := ⟨"c.bb:do_x.bb".toList, "do_t".toList, by decide⟩

/-- Two recipes and two whose file names go on behind the file names of the
first two. -/
def recipes : RunQueueData where
  taskData := [([], {
    buildTargets := [("a".toList, ["a.bb".toList])]
    runTargets := []
    seenfns := []
    taskentries := [(lowerA, ⟨[], [], []⟩)]
    depids := []
    rdepids := []
    failedDeps := []
    failedRdeps := []
    failedFns := []
    mcdepends := [] })]
  targets := [⟨[], "a".toList, "do_y".toList, "a.bb".toList⟩]
  runtaskentries :=
    [(lowerA, ⟨[], []⟩), (lowerC, ⟨[], []⟩), (upperA, ⟨[lowerC], []⟩),
      (upperC, ⟨[lowerA], []⟩)]
  targetTids := []

def runall : List Text := ["do_x.bb:do_t".toList]

theorem markAll_two (fuel : ℕ) : recipes.markAll (fuel + 2) runall =
    recipes.runallLoop (fuel + 2) runall (fuel + 1) [upperA]
      ⟨[lowerC, upperA], [lowerA, upperA]⟩ := by
  rfl

variable (fuel rounds : ℕ)

theorem loop_upperA (targetTids : List Tid) :
    recipes.runallLoop (fuel + 2) runall (rounds + 1)
      [upperA] ⟨[lowerC, upperA], targetTids⟩ =
      recipes.runallLoop (fuel + 2) runall rounds [upperC]
        ⟨[lowerA, upperC], targetTids ++ [upperC]⟩ := by
  rfl

theorem loop_upperC (targetTids : List Tid) :
    recipes.runallLoop (fuel + 2) runall (rounds + 1)
      [upperC] ⟨[lowerA, upperC], targetTids⟩ =
      recipes.runallLoop (fuel + 2) runall rounds [upperA]
        ⟨[lowerC, upperA], targetTids ++ [upperA]⟩ := by
  rfl

theorem runallLoop_endless :
    (∀ targetTids, recipes.runallLoop (fuel + 2) runall rounds [upperA]
      ⟨[lowerC, upperA], targetTids⟩ = .error .endless) ∧
    ∀ targetTids, recipes.runallLoop (fuel + 2) runall rounds [upperC]
      ⟨[lowerA, upperC], targetTids⟩ = .error .endless := by
  induction rounds with
  | zero => exact ⟨fun _ => rfl, fun _ => rfl⟩
  | succ rounds induction =>
      constructor
      · intro targetTids
        rw [loop_upperA]
        exact induction.2 _
      · intro targetTids
        rw [loop_upperC]
        exact induction.1 _

theorem resolved : recipes.Resolved := by
  constructor
  · decide
  · decide
  · intro tid
    simp only [RunQueueData.revdeps, recipes, Dict.get?]
    split_ifs <;> rfl

theorem targetsKnown : recipes.TargetsKnown := by
  intro target member
  obtain rfl := List.mem_singleton.mp member
  exact ⟨_, rfl, by decide⟩

/-- The loop for `--runall` goes to and fro between the two, however long it
runs. -/
theorem runall_endless : recipes.Resolved ∧ recipes.TargetsKnown ∧
    ∀ fuel, recipes.prune fuel ⟨["do_x.bb:do_t".toList], []⟩ =
      .error .endless := by
  refine ⟨resolved, targetsKnown, ?_⟩
  intro fuel
  rcases fuel with _ | _ | fuel
  · rfl
  · rfl
  · have endless : recipes.markAll (fuel + 2) runall = .error .endless := by
      rw [markAll_two]
      exact (runallLoop_endless fuel (fuel + 1)).1 _
    rw [RunQueueData.prune]
    change (recipes.markAll (fuel + 2) runall >>= _) = _
    rw [endless]
    rfl

/-- The target depends on the other task of the name. -/
def linked : RunQueueData :=
  { recipes with
    runtaskentries :=
      [(lowerA, ⟨[lowerC], []⟩), (lowerC, ⟨[], []⟩), (upperA, ⟨[], []⟩)] }

theorem prune_keeps_least_linked :
    ∃ kept : Set Tid, lowerA ∈ kept ∧ lowerC ∈ kept ∧
      ∃ rq', linked.prune 4 ⟨["y".toList], []⟩ = .ok rq' ∧
        RunQueueData.Pruned linked rq' kept := by
  have linkedResolved : linked.Resolved := by
    constructor
    · decide
    · decide
    · intro tid
      simp only [RunQueueData.revdeps, linked, Dict.get?]
      split_ifs <;> rfl
  have linkedKnown : linked.TargetsKnown := by
    intro target member
    obtain rfl := List.mem_singleton.mp member
    exact ⟨_, rfl, by decide⟩
  obtain ⟨rq', ran, keys⟩ : ∃ rq', linked.prune 4 ⟨["y".toList], []⟩ = .ok rq' ∧
      rq'.runtaskentries.keys = [lowerA, lowerC] := ⟨_, rfl, rfl⟩
  rcases RunQueueData.prune_keeps_least linkedResolved linkedKnown
      ⟨["y".toList], []⟩ (by unfold RunQueueData.Apart; decide)
      (by decide : linked.runtaskentries.length < 4) with
    ⟨_, _, _, _, failed⟩ | ⟨_, _, _, kept, _, _, _, ⟨_, failed⟩ | ⟨_, pruned⟩⟩
  · rw [ran] at failed
    cases failed
  · rw [ran] at failed
    rcases failed with failed | failed | failed <;> cases failed
  · obtain ⟨found, same, pruned⟩ := pruned
    rw [ran] at same
    cases same
    refine ⟨kept, (pruned.keys lowerA).mp ?_, (pruned.keys lowerC).mp ?_, rq',
      ran, pruned⟩
    · simp [keys]
    · simp [keys]

end Colons

end Nvbmc.Prepare
