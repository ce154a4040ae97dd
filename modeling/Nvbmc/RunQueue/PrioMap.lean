import Mathlib.Algebra.Order.BigOperators.Group.List
import Mathlib.Algebra.Order.Group.Nat
import Mathlib.Data.Char
import Nvbmc.Library.Grouping
import Nvbmc.Library.Split
import Nvbmc.Library.Text
import Nvbmc.RunQueue.TaskWeights

/-!
# Priority maps

The speed scheduler sorts the tasks by weight.  The completion scheduler merges
the lists of task names of the recipes, and moves the tasks of a name to the
front of the map, one name after the other.
-/

namespace Nvbmc.RunQueue

open Nvbmc.Library

abbrev TaskId := { text : Text // ':' ∈ text }

/-- `taskid.rsplit(':', 1)`. -/
def TaskId.rsplit (taskid : TaskId) : Text × Text :=
  (rsplitOnce ':' taskid.val).get (rsplitOnce_isSome.mpr taskid.property)

theorem TaskId.rsplit_injective : Function.Injective TaskId.rsplit := by
  intro first second same
  have parts : ∀ taskid : TaskId,
      taskid.val = (TaskId.rsplit taskid).1 ++ ':' ::
        (TaskId.rsplit taskid).2 := by
    intro taskid
    exact (rsplitOnce_eq_some.mp
      (Option.some_get (rsplitOnce_isSome.mpr taskid.property)).symm).1
  exact Subtype.ext (by rw [parts first, same, ← parts second])

structure Merging where
  allTasks : List Text
  index : ℕ
  oldTask : Option Text

def Merging.at (allTasks : List Text) (index : ℕ) : Merging :=
  ⟨allTasks, index, allTasks[index]?⟩

def mergeTask (merging : Merging) (newTask : Text) : Merging :=
  if merging.oldTask = some newTask then
    .at merging.allTasks (merging.index + 1)
  else if newTask ∈ merging.allTasks then
    .at merging.allTasks (merging.allTasks.idxOf newTask + 1)
  else
    { merging with
      allTasks := merging.allTasks.insertIdx merging.index newTask
      index := merging.index + 1 }

def mergeRecipe (allTasks newTasks : List Text) : List Text :=
  (newTasks.foldl mergeTask (.at allTasks 0)).allTasks

def mergeTaskLists (taskLists : List (List Text)) : List Text :=
  taskLists.foldl mergeRecipe []

section Merge

variable {front back before after allTasks newTasks rest done known : List Text}
  {task : Text} {merging : Merging}

/-- The cursor stands between two parts of the merged list. -/
structure Cursor (front back : List Text) (merging : Merging) : Prop where
  allTasks : merging.allTasks = front ++ back
  index : merging.index = front.length
  oldTask : merging.oldTask = back.head?

theorem cursor_at : Cursor front back (.at (front ++ back) front.length) := by
  constructor
  · rfl
  · rfl
  · cases back <;> simp [Merging.at]

theorem Cursor.insert (cursor : Cursor front back merging)
    (new : task ∉ front ++ back) :
    Cursor (front ++ [task]) back (mergeTask merging task) := by
  have notOld : merging.oldTask ≠ some task := by
    rw [cursor.oldTask]
    intro isHead
    exact new (List.mem_append_right _ (List.mem_of_head? isHead))
  rw [mergeTask, if_neg notOld, cursor.allTasks, if_neg new, cursor.index,
    insertIdx_length_append]
  constructor
  · simp
  · simp
  · exact cursor.oldTask

theorem length_eq_idxOf (nodup : (before ++ task :: after).Nodup) :
    (before ++ task :: after).idxOf task = before.length := by
  have absent : task ∉ before := by
    rw [List.nodup_append] at nodup
    intro member
    exact nodup.2.2 task member task (List.mem_cons_self ..) rfl
  rw [List.idxOf_append_of_notMem absent, List.idxOf_cons_self, Nat.add_zero]

variable (cursor : Cursor front back merging)
include cursor

variable (nodup : (front ++ back).Nodup)
include nodup

theorem Cursor.skip (split : front ++ back = before ++ task :: after) :
    Cursor (before ++ [task]) after (mergeTask merging task) := by
  have position := split ▸ length_eq_idxOf (split ▸ nodup)
  have behind : Merging.at (front ++ back) (before.length + 1) =
      .at (before ++ [task] ++ after) (before ++ [task]).length := by
    rw [split]
    simp
  rw [mergeTask, cursor.allTasks]
  split_ifs with isOld found
  · rw [cursor.oldTask] at isOld
    obtain ⟨rest, backSplit⟩ := List.head?_eq_some_iff.mp isOld
    have sameLength : front.length = before.length := by
      rw [← position, backSplit, length_eq_idxOf (backSplit ▸ nodup)]
    rw [cursor.index, sameLength, behind]
    exact cursor_at
  · rw [position, behind]
    exact cursor_at
  · exact absurd (by simp [split]) found

theorem Cursor.foldl_mergeTask :
    (newTasks.foldl mergeTask merging).allTasks.Nodup ∧
      (front ++ back).Sublist (newTasks.foldl mergeTask merging).allTasks ∧
      ∀ task, task ∈ (newTasks.foldl mergeTask merging).allTasks ↔
        task ∈ front ++ back ∨ task ∈ newTasks := by
  induction newTasks generalizing front back merging with
  | nil => simpa [cursor.allTasks] using nodup
  | cons newTask newTasks induction =>
      rw [List.foldl_cons]
      by_cases known : newTask ∈ front ++ back
      · obtain ⟨before, after, split⟩ := List.append_of_mem known
        have regroup : before ++ [newTask] ++ after = front ++ back := by
          simp [split]
        obtain ⟨stillNodup, kept, members⟩ :=
          induction (cursor.skip nodup split) (regroup ▸ nodup)
        rw [regroup] at kept members
        refine ⟨stillNodup, kept, ?_⟩
        intro task
        rw [members]
        have head : task = newTask → task ∈ front ++ back :=
          fun same => same ▸ known
        rw [List.mem_cons]
        tauto
      · have larger : (front ++ [newTask] ++ back).Nodup := by
          rw [List.append_assoc, List.singleton_append, List.nodup_middle]
          exact List.nodup_cons.mpr ⟨known, nodup⟩
        obtain ⟨stillNodup, kept, members⟩ :=
          induction (cursor.insert known) larger
        refine ⟨stillNodup, ?_, ?_⟩
        · apply List.Sublist.trans _ kept
          exact (List.sublist_append_left front [newTask]).append_right back
        · intro task
          rw [members]
          simp only [List.mem_append, List.mem_cons, List.not_mem_nil, or_false]
          tauto

/-- The tasks that the list has stand there in the order of the recipe, so that
the cursor never goes back. -/
theorem Cursor.sublist_foldl_mergeTask (distinct : rest.Nodup)
    (merged : done.Sublist front)
    (inOrder : (rest.filter (· ∈ known)).Sublist back)
    (fresh : ∀ task ∈ rest, task ∉ known → task ∉ front ++ back) :
    (done ++ rest).Sublist (rest.foldl mergeTask merging).allTasks := by
  induction rest generalizing front back merging done with
  | nil =>
      rw [List.append_nil, List.foldl_nil, cursor.allTasks]
      exact merged.trans (List.sublist_append_left ..)
  | cons task rest induction =>
      rw [List.nodup_cons] at distinct
      have regroup : done ++ task :: rest = done ++ [task] ++ rest := by
        simp
      rw [regroup, List.foldl_cons]
      by_cases isKnown : task ∈ known
      · rw [List.filter_cons_of_pos (by simpa using isKnown),
          List.cons_sublist_iff] at inOrder
        obtain ⟨first, second, backSplit, member, later⟩ := inOrder
        obtain ⟨between, behind, firstSplit⟩ := List.append_of_mem member
        have split : front ++ back = front ++ between ++ task ::
            (behind ++ second) := by
          simp [backSplit, firstSplit]
        have sameTasks : front ++ between ++ [task] ++ (behind ++ second) =
            front ++ back := by
          simp [split]
        apply induction (cursor.skip nodup split) (sameTasks ▸ nodup) distinct.2
        · exact (merged.trans (List.sublist_append_left ..)).append
            (List.Sublist.refl _)
        · exact later.trans (List.sublist_append_right ..)
        · intro other member notKnown
          rw [sameTasks]
          exact fresh other (List.mem_cons_of_mem _ member) notKnown
      · have new := fresh task (List.mem_cons_self ..) isKnown
        rw [List.filter_cons_of_neg (by simpa using isKnown)] at inOrder
        have larger : (front ++ [task] ++ back).Nodup := by
          rw [List.append_assoc, List.singleton_append, List.nodup_middle]
          exact List.nodup_cons.mpr ⟨new, nodup⟩
        apply induction (cursor.insert new) larger distinct.2
        · exact merged.append (List.Sublist.refl _)
        · exact inOrder
        · intro other member notKnown already
          have notBefore := fresh other (List.mem_cons_of_mem _ member) notKnown
          simp only [List.mem_append, List.mem_cons, List.not_mem_nil, or_false]
            at already notBefore
          have same : other = task := by
            tauto
          exact distinct.1 (same ▸ member)

omit nodup

omit cursor

theorem mergeRecipe_grows (nodup : allTasks.Nodup) :
    (mergeRecipe allTasks newTasks).Nodup ∧
      allTasks.Sublist (mergeRecipe allTasks newTasks) ∧
      ∀ task, task ∈ mergeRecipe allTasks newTasks ↔ task ∈ allTasks ∨
        task ∈ newTasks :=
  (@cursor_at [] allTasks).foldl_mergeTask nodup

theorem filter_mem_of_sublist {tasks larger : List Text} (nodup : larger.Nodup)
    (part : tasks.Sublist larger) : larger.filter (· ∈ tasks) = tasks := by
  have all : tasks.filter (· ∈ tasks) = tasks := by
    rw [List.filter_eq_self]
    intro task member
    simpa using member
  have kept := part.filter (· ∈ tasks)
  rw [all] at kept
  refine (kept.eq_of_length_le ?_).symm
  apply ((nodup.filter _).subperm _).length_le
  intro task member
  simpa using (List.mem_filter.mp member).2

theorem sublist_mergeRecipe_iff (nodup : allTasks.Nodup)
    (distinct : newTasks.Nodup) :
    newTasks.Sublist (mergeRecipe allTasks newTasks) ↔
      (newTasks.filter (· ∈ allTasks)).Sublist allTasks := by
  obtain ⟨stillNodup, kept, -⟩ := @mergeRecipe_grows allTasks newTasks nodup
  constructor
  · intro ordered
    have common := ordered.filter (· ∈ allTasks)
    rwa [filter_mem_of_sublist stillNodup kept] at common
  · intro inOrder
    have start : Cursor [] allTasks (.at allTasks 0) := cursor_at
    exact start.sublist_foldl_mergeTask nodup distinct (List.Sublist.refl [])
      inOrder fun task _ notKnown => notKnown

variable {lists earlier later : List (List Text)} {recipe : List Text}

theorem foldl_mergeRecipe_grows (nodup : allTasks.Nodup) :
    (lists.foldl mergeRecipe allTasks).Nodup ∧
      allTasks.Sublist (lists.foldl mergeRecipe allTasks) ∧
      ∀ task, task ∈ lists.foldl mergeRecipe allTasks ↔
        task ∈ allTasks ∨ ∃ recipe ∈ lists, task ∈ recipe := by
  induction lists generalizing allTasks with
  | nil => simpa using nodup
  | cons recipe lists induction =>
      obtain ⟨nodupThen, keptThen, membersThen⟩ :=
        @mergeRecipe_grows allTasks recipe nodup
      obtain ⟨nodupLast, keptLast, membersLast⟩ := induction nodupThen
      refine ⟨nodupLast, keptThen.trans keptLast, ?_⟩
      intro task
      rw [List.foldl_cons, membersLast, membersThen, or_assoc]
      simp

theorem nodup_mergeTaskLists : (mergeTaskLists lists).Nodup :=
  (foldl_mergeRecipe_grows List.nodup_nil).1

theorem mem_mergeTaskLists : task ∈ mergeTaskLists lists ↔ ∃ recipe ∈ lists,
    task ∈ recipe := by
  rw [mergeTaskLists, (foldl_mergeRecipe_grows List.nodup_nil).2.2]
  simp

theorem sublist_mergeTaskLists_iff (distinct : recipe.Nodup) :
    recipe.Sublist (mergeTaskLists (earlier ++ recipe :: later)) ↔
      (recipe.filter (· ∈ mergeTaskLists earlier)).Sublist
        (mergeTaskLists earlier) := by
  have settled : mergeTaskLists (earlier ++ recipe :: later) =
      later.foldl mergeRecipe
        (mergeRecipe (mergeTaskLists earlier) recipe) := by
    rw [mergeTaskLists, List.foldl_append, List.foldl_cons]
    rfl
  obtain ⟨nodup, -, members⟩ :=
    @mergeRecipe_grows (mergeTaskLists earlier) recipe nodup_mergeTaskLists
  obtain ⟨nodupLast, keptLast, -⟩ := @foldl_mergeRecipe_grows _ later nodup
  rw [← sublist_mergeRecipe_iff nodup_mergeTaskLists distinct, settled]
  constructor
  · intro ordered
    have own : recipe.filter
        (· ∈ mergeRecipe (mergeTaskLists earlier) recipe) = recipe := by
      rw [List.filter_eq_self]
      intro task member
      simpa using (members task).mpr (.inr member)
    have common :=
      ordered.filter (· ∈ mergeRecipe (mergeTaskLists earlier) recipe)
    rwa [own, filter_mem_of_sublist nodupLast keptLast] at common
  · intro ordered
    exact ordered.trans keptLast

def Consistent (lists : List (List Text)) : Prop :=
  ∃ order : List Text, order.Nodup ∧ ∀ recipe ∈ lists, recipe.Sublist order

/-- When a recipe is merged, the merged list has the tasks that it knows already
in the order of the recipe. -/
def MergedInOrder (lists : List (List Text)) : Prop :=
  ∀ earlier recipe later, lists = earlier ++ recipe :: later →
    (recipe.filter (· ∈ mergeTaskLists earlier)).Sublist
      (mergeTaskLists earlier)

theorem ordersRecipes_iff (distinct : ∀ recipe ∈ lists, recipe.Nodup) :
    (∀ recipe ∈ lists, recipe.Sublist (mergeTaskLists lists)) ↔
      MergedInOrder lists := by
  constructor
  · intro ordered earlier recipe later split
    have member : recipe ∈ lists := by simp [split]
    rw [← @sublist_mergeTaskLists_iff earlier later _
      (distinct recipe member), ← split]
    exact ordered recipe member
  · intro inOrder recipe member
    obtain ⟨earlier, later, split⟩ := List.append_of_mem member
    rw [split, sublist_mergeTaskLists_iff (distinct recipe member)]
    exact inOrder earlier recipe later split

end Merge

section Schedulers

variable {Tid : Type}

/-- The `prio_map` of `RunQueueSchedulerSpeed`. -/
def speedPrioMap (runtaskentries : List Tid) (weight : Tid → ℕ) : List Tid :=
  let weights := Dict.groups weight id runtaskentries
  ((sorted weights.keys).flatMap fun weight => (weights.get? weight).getD
    []).reverse

variable (rsplit : Tid → Text × Text)

def taskLists (prioMap : List Tid) : List (List Text) :=
  (Dict.groups (fun taskid => (rsplit taskid).1)
    (fun taskid => (rsplit taskid).2) prioMap).map Prod.snd

/-- One turn of the inner loop; no result for an `IndexError`. -/
def moveTask (task : Text) (state : List Tid × ℕ) (index : ℕ) :
    Option (List Tid × ℕ) := do
  let taskid ← state.1[index]?
  if (rsplit taskid).2 = task then
    some ((state.1.eraseIdx index).insertIdx state.2 taskid, state.2 + 1)
  else some state

def moveTasks (numTasks : ℕ) (state : List Tid × ℕ) (task : Text) :
    Option (List Tid × ℕ) :=
  (List.range' state.2 (numTasks - state.2)).foldlM (moveTask rsplit task) state

/-- The merged list of `RunQueueSchedulerCompletion`, before it is reversed. -/
def mergedTasks (prioMap : List Tid) : List Text :=
  mergeTaskLists (taskLists rsplit prioMap)

/-- The `prio_map` of `RunQueueSchedulerCompletion`. -/
def completionPrioMap (runtaskentries : List Tid) (weight : Tid → ℕ) :
    Option (List Tid) := do
  let prioMap := speedPrioMap runtaskentries weight
  let final ← (mergedTasks rsplit prioMap).reverse.foldlM
    (moveTasks rsplit runtaskentries.length) (prioMap, 0)
  some final.1

end Schedulers

section Speed

variable {Tid : Type} {runtaskentries : List Tid} {weight : Tid → ℕ}

theorem speedPrioMap_eq : speedPrioMap runtaskentries weight =
    ((sorted (Dict.groups weight id runtaskentries).keys).flatMap
      fun value => runtaskentries.filter (weight · = value)).reverse := by
  simp [speedPrioMap, Dict.getD_groups]

theorem perm_speedPrioMap :
    (speedPrioMap runtaskentries weight).Perm runtaskentries := by
  rw [speedPrioMap_eq]
  apply (List.reverse_perm _).trans
  apply perm_flatMap_filter
  · exact (List.perm_insertionSort _ _).nodup_iff.mpr Dict.nodup_keys_groups
  · intro tid member
    rw [mem_sorted, Dict.mem_keys_groups]
    exact ⟨tid, member, rfl⟩

theorem pairwise_speedPrioMap :
    (speedPrioMap runtaskentries weight).Pairwise (fun first later =>
      weight later ≤ weight first) := by
  rw [speedPrioMap_eq, List.pairwise_reverse, List.pairwise_flatMap]
  have inGroup : ∀ {value : ℕ} {tid : Tid},
      tid ∈ runtaskentries.filter (weight · = value) → weight tid = value := by
    intro value tid member
    simpa using (List.mem_filter.mp member).2
  constructor
  · intro value _
    apply List.pairwise_of_forall_mem_list
    intro first firstIn later laterIn
    rw [inGroup firstIn, inGroup laterIn]
  · apply (List.pairwise_insertionSort (· ≤ ·) _).imp
    intro small large ordered first firstIn later laterIn
    rwa [inGroup firstIn, inGroup laterIn]

theorem sublist_speedPrioMap {first later : Tid}
    (member : first ∈ runtaskentries)
    (alsoMember : later ∈ runtaskentries)
    (heavier : weight later < weight first) :
    [first, later].Sublist (speedPrioMap runtaskentries weight) := by
  rw [← (@perm_speedPrioMap _ _ weight).mem_iff] at member alsoMember
  obtain ⟨before, after, split⟩ := List.append_of_mem member
  have ordered := @pairwise_speedPrioMap _ runtaskentries weight
  rw [split] at alsoMember ordered ⊢
  have notBefore : later ∉ before := by
    intro isBefore
    rw [List.pairwise_append] at ordered
    have heavy := ordered.2.2 later isBefore first (List.mem_cons_self ..)
    omega
  have isAfter : later ∈ after := by
    rcases List.mem_append.mp alsoMember with isBefore | here
    · exact absurd isBefore notBefore
    · rcases List.mem_cons.mp here with same | isAfter
      · exact absurd (same ▸ heavier) (Nat.lt_irrefl _)
      · exact isAfter
  apply List.Sublist.trans _ (List.sublist_append_right before _)
  exact (List.singleton_sublist.mpr isAfter).cons_cons first

end Speed

section Completion

variable {Tid : Type} {rsplit : Tid → Text × Text} {task : Text}

def tasksNamed (rsplit : Tid → Text × Text) (prioMap : List Tid) (task : Text) :
    List Tid :=
  prioMap.filter fun taskid => (rsplit taskid).2 = task

section MoveTask

variable {front found others rest : List Tid} {taskid : Tid}

theorem getElem?_length_append (front rest : List Tid) (taskid : Tid) :
    (front ++ taskid :: rest)[front.length]? = some taskid := by
  simp

theorem moveTask_wanted (wanted : (rsplit taskid).2 = task) :
    moveTask rsplit task (front ++ found ++ others ++ taskid :: rest,
      (front ++ found).length) (front ++ found ++ others).length =
      some (front ++ (found ++ [taskid]) ++ others ++ rest,
        (front ++ (found ++ [taskid])).length) := by
  have moved : ((front ++ found ++ others ++ taskid :: rest).eraseIdx
        (front ++ found ++ others).length).insertIdx (front ++ found).length
          taskid =
      front ++ (found ++ [taskid]) ++ others ++ rest := by
    rw [eraseIdx_length_append, List.append_assoc (front ++ found),
      insertIdx_length_append]
    simp
  have counted : (front ++ (found ++ [taskid])).length =
      (front ++ found).length + 1 := by
    simp only [List.length_append, List.length_singleton]
    omega
  rw [moveTask, getElem?_length_append, counted]
  simp only [Option.bind_eq_bind, Option.bind_some, wanted, if_true, moved]

theorem moveTask_other (other : (rsplit taskid).2 ≠ task) :
    moveTask rsplit task (front ++ found ++ others ++ taskid :: rest,
      (front ++ found).length) (front ++ found ++ others).length =
      some (front ++ found ++ (others ++ [taskid]) ++ rest,
        (front ++ found).length) := by
  rw [moveTask, getElem?_length_append]
  simp [other]

theorem foldlM_moveTask :
    (List.range' (front ++ found ++ others).length rest.length).foldlM
      (moveTask rsplit task)
        (front ++ found ++ others ++ rest, (front ++ found).length) =
      some (front ++ (found ++ tasksNamed rsplit rest task) ++
          (others ++ rest.filter fun taskid => (rsplit taskid).2 ≠ task),
        (front ++ (found ++ tasksNamed rsplit rest task)).length) := by
  induction rest generalizing found others with
  | nil => simp [tasksNamed]
  | cons taskid rest induction =>
      rw [List.length_cons, List.range'_succ, List.foldlM_cons]
      by_cases wanted : (rsplit taskid).2 = task
      · have position : (front ++ found ++ others).length + 1 =
            (front ++ (found ++ [taskid]) ++ others).length := by
          simp only [List.length_append, List.length_singleton]
          omega
        rw [moveTask_wanted wanted, Option.bind_eq_bind, Option.bind_some,
          position, induction]
        simp [tasksNamed, wanted]
      · have position : (front ++ found ++ others).length + 1 =
            (front ++ found ++ (others ++ [taskid])).length := by
          simp only [List.length_append, List.length_singleton]
          omega
        rw [moveTask_other wanted, Option.bind_eq_bind, Option.bind_some,
          position, induction]
        simp [tasksNamed, wanted]

end MoveTask

theorem moveTasks_eq (front rest : List Tid) :
    moveTasks rsplit (front ++ rest).length (front ++ rest, front.length) task =
      some (front ++ tasksNamed rsplit rest task ++
          rest.filter fun taskid => (rsplit taskid).2 ≠ task,
        (front ++ tasksNamed rsplit rest task).length) := by
  have moved := @foldlM_moveTask _ rsplit task front [] [] rest
  simp only [List.append_nil, List.nil_append] at moved
  rwa [moveTasks, List.length_append, Nat.add_sub_cancel_left]

variable {names : List Text}

theorem foldlM_moveTasks (nodup : names.Nodup) (front rest : List Tid) :
    ∃ taskIndex, names.foldlM (moveTasks rsplit (front ++ rest).length)
        (front ++ rest, front.length) =
      some (front ++ names.flatMap (tasksNamed rsplit rest) ++
        rest.filter (fun taskid => (rsplit taskid).2 ∉ names), taskIndex) := by
  induction names generalizing front rest with
  | nil => exact ⟨front.length, by simp⟩
  | cons name names induction =>
      rw [List.nodup_cons] at nodup
      have sameLength : (front ++ rest).length =
          (front ++ tasksNamed rsplit rest name ++
            rest.filter fun taskid => (rsplit taskid).2 ≠ name).length := by
        have parts := List.length_eq_length_filter_add (l := rest)
          fun taskid => (rsplit taskid).2 = name
        simp only [tasksNamed, List.length_append, decide_not]
        omega
      obtain ⟨taskIndex, later⟩ :=
        induction nodup.2 (front ++ tasksNamed rsplit rest name)
        (rest.filter fun taskid => (rsplit taskid).2 ≠ name)
      refine ⟨taskIndex, ?_⟩
      rw [List.foldlM_cons, moveTasks_eq, Option.bind_eq_bind, Option.bind_some,
        sameLength, later]
      have sameGroups : names.flatMap (tasksNamed rsplit
            (rest.filter fun taskid => (rsplit taskid).2 ≠ name)) =
          names.flatMap (tasksNamed rsplit rest) :=
        flatMap_filter_of_notMem nodup.1
      have sameRest :
          (rest.filter fun taskid => (rsplit taskid).2 ≠ name).filter
            (fun taskid => (rsplit taskid).2 ∉ names) =
          rest.filter fun taskid => (rsplit taskid).2 ∉ name :: names := by
        rw [List.filter_filter]
        apply List.filter_congr
        intro taskid _
        simp [Bool.and_comm]
      rw [sameGroups, sameRest, List.flatMap_cons, List.append_assoc front]

theorem completionPrioMap_eq {runtaskentries : List Tid} {weight : Tid → ℕ}
    (nodup : (mergedTasks rsplit (speedPrioMap runtaskentries weight)).Nodup)
    (named : ∀ taskid ∈ runtaskentries,
      (rsplit taskid).2 ∈
        mergedTasks rsplit (speedPrioMap runtaskentries weight)) :
    completionPrioMap rsplit runtaskentries weight =
      some ((mergedTasks rsplit
        (speedPrioMap runtaskentries weight)).reverse.flatMap
        (tasksNamed rsplit (speedPrioMap runtaskentries weight))) := by
  obtain ⟨taskIndex, moved⟩ :=
    @foldlM_moveTasks _ rsplit _ (List.nodup_reverse.mpr nodup) []
    (speedPrioMap runtaskentries weight)
  have noneLeft : (speedPrioMap runtaskentries weight).filter (fun taskid =>
      (rsplit taskid).2 ∉ (mergedTasks rsplit
        (speedPrioMap runtaskentries weight)).reverse) = [] := by
    rw [List.filter_eq_nil_iff]
    intro taskid member
    simpa using named taskid (perm_speedPrioMap.mem_iff.mp member)
  rw [noneLeft, List.append_nil, List.nil_append, List.nil_append,
    perm_speedPrioMap.length_eq] at moved
  rw [completionPrioMap, Option.bind_eq_bind]
  simp only [List.length_nil] at moved
  simp [moved]

variable {prioMap : List Tid}

theorem mem_taskLists (member : names ∈ taskLists rsplit prioMap) :
    ∃ recipe, names =
      (prioMap.filter (fun taskid => (rsplit taskid).1 = recipe)).map
      fun taskid => (rsplit taskid).2 := by
  obtain ⟨⟨recipe, group⟩, entry, same⟩ := List.mem_map.mp member
  exact ⟨recipe, same ▸ Dict.eq_of_mem_groups entry⟩

theorem nodup_of_mem_taskLists (injective : Function.Injective rsplit)
    (nodup : prioMap.Nodup) (member : names ∈ taskLists rsplit prioMap) :
    names.Nodup := by
  obtain ⟨recipe, same⟩ := mem_taskLists member
  rw [same]
  apply (nodup.filter _).map_on
  intro first firstIn second secondIn sameName
  have firstRecipe : (rsplit first).1 = recipe := by
    simpa using (List.mem_filter.mp firstIn).2
  have secondRecipe : (rsplit second).1 = recipe := by
    simpa using (List.mem_filter.mp secondIn).2
  exact injective (Prod.ext (firstRecipe.trans secondRecipe.symm) sameName)

theorem mem_mergedTasks :
    task ∈ mergedTasks rsplit prioMap ↔ ∃ taskid ∈ prioMap,
      (rsplit taskid).2 = task := by
  rw [mergedTasks, mem_mergeTaskLists]
  constructor
  · intro ⟨names, member, isName⟩
    obtain ⟨recipe, same⟩ := mem_taskLists member
    rw [same] at isName
    obtain ⟨taskid, found, named⟩ := List.mem_map.mp isName
    exact ⟨taskid, (List.mem_filter.mp found).1, named⟩
  · intro ⟨taskid, member, named⟩
    have isKey : (rsplit taskid).1 ∈
        (Dict.groups (fun taskid => (rsplit taskid).1)
        (fun taskid => (rsplit taskid).2) prioMap).keys :=
      Dict.mem_keys_groups.mpr ⟨taskid, member, rfl⟩
    obtain ⟨⟨recipe, names⟩, entry, sameRecipe⟩ := List.mem_map.mp isKey
    refine ⟨names, List.mem_map.mpr ⟨_, entry, rfl⟩, ?_⟩
    rw [Dict.eq_of_mem_groups entry]
    apply List.mem_map.mpr
    refine ⟨taskid, List.mem_filter.mpr ⟨member, ?_⟩, named⟩
    simpa using sameRecipe.symm

end Completion

theorem TaskEntries.Weighs.lt {Tid : Type} {entries : TaskEntries Tid}
    {weight : Tid → ℕ}
    (weighs : entries.Weighs weight) {tid dep : Tid}
    (edge : dep ∈ entries.depends tid) :
    weight tid < weight dep := by
  have total := weighs dep (entries.depends_mem edge).2
  have base : 0 < entries.baseWeight dep := by
    rw [TaskEntries.baseWeight]
    split_ifs <;> omega
  have part : weight tid ≤ ((entries.revdeps dep).map weight).sum := by
    apply List.le_sum_of_mem
    exact List.mem_map.mpr ⟨tid, entries.mem_revdeps.mpr edge, rfl⟩
  omega

structure PrioMapsRight (entries : TaskEntries TaskId)
    (speed completion : List TaskId) (merged : List Text) : Prop where
  speedPerm : speed.Perm entries.runtaskentries
  speedOrder : ∀ tid, ∀ dep ∈ entries.depends tid, [dep, tid].Sublist speed
  completionPerm : completion.Perm entries.runtaskentries
  grouped : completion = merged.reverse.flatMap (tasksNamed TaskId.rsplit speed)
  mergedNodup : merged.Nodup
  mem_merged : ∀ task, task ∈ merged ↔
    ∃ tid ∈ entries.runtaskentries, (TaskId.rsplit tid).2 = task
  mergedOrder : Consistent (taskLists TaskId.rsplit speed) →
    ∀ recipe ∈ taskLists TaskId.rsplit speed, recipe.Sublist merged

/-- The maps are right if and only if the recipes are merged in order, which
recipes that agree on one linear order need not be. -/
theorem prioMaps_right_iff (entries : TaskEntries TaskId)
    (acyclic : Acyclic fun dep tid => dep ∈ entries.depends tid) :
    ∃ weight completion,
      entries.calculateTaskWeights entries.endpoints = some (.ok weight) ∧
      completionPrioMap TaskId.rsplit entries.runtaskentries weight =
        some completion ∧
      let speed := speedPrioMap entries.runtaskentries weight
      let recipes := taskLists TaskId.rsplit speed
      (PrioMapsRight entries speed completion
        (mergedTasks TaskId.rsplit speed) ↔
        (Consistent recipes → MergedInOrder recipes)) := by
  rcases entries.calculateTaskWeights_cases with
    ⟨-, weight, calculated, weighs⟩ | ⟨cyclic, -⟩
  swap
  · exact absurd acyclic cyclic
  have perm : (speedPrioMap entries.runtaskentries weight).Perm
      entries.runtaskentries :=
    perm_speedPrioMap
  have nodup := perm.nodup_iff.mpr entries.nodup
  have named : ∀ taskid ∈ entries.runtaskentries, (TaskId.rsplit taskid).2 ∈
      mergedTasks TaskId.rsplit
        (speedPrioMap entries.runtaskentries weight) := by
    intro taskid member
    exact mem_mergedTasks.mpr ⟨taskid, perm.mem_iff.mpr member, rfl⟩
  have mergedNodup : (mergedTasks TaskId.rsplit
      (speedPrioMap entries.runtaskentries weight)).Nodup :=
    nodup_mergeTaskLists
  have distinct : ∀ recipe ∈ taskLists TaskId.rsplit
      (speedPrioMap entries.runtaskentries weight), recipe.Nodup :=
    fun _ member => nodup_of_mem_taskLists TaskId.rsplit_injective nodup member
  refine ⟨weight, _, calculated, completionPrioMap_eq mergedNodup named, ?_⟩
  intro speed recipes
  have ordered :
      (∀ recipe ∈ recipes, recipe.Sublist (mergedTasks TaskId.rsplit speed)) ↔
      MergedInOrder recipes :=
    ordersRecipes_iff distinct
  constructor
  · intro right consistent
    exact ordered.mp (right.mergedOrder consistent)
  · intro inOrder
    constructor
    case speedPerm => exact perm
    case speedOrder =>
        intro tid dep edge
        exact sublist_speedPrioMap (entries.depends_mem edge).2
          (entries.depends_mem edge).1 (weighs.lt edge)
    case completionPerm =>
        apply (perm_flatMap_filter (List.nodup_reverse.mpr mergedNodup) _).trans
          perm
        intro taskid member
        rw [List.mem_reverse]
        exact named taskid (perm.mem_iff.mp member)
    case grouped => rfl
    case mergedNodup => exact mergedNodup
    case mem_merged =>
        intro task
        rw [mem_mergedTasks]
        simp only [speed, perm.mem_iff]
    case mergedOrder => exact fun consistent => ordered.mpr (inOrder consistent)

def taskId (fn task : Char) : TaskId :=
  ⟨[fn, ':', task], by simp⟩

/-- A recipe with `a` and `c`, one with `b` and `c`, and one with `a` and `b`,
in each of which the later task depends on the earlier one. -/
def threeRecipes : TaskEntries TaskId :=
  .ofEdges
    [taskId '3' 'b', taskId '2' 'c', taskId '1' 'c', taskId '3' 'a',
      taskId '2' 'b', taskId '1' 'a']
    [(taskId '1' 'c', taskId '1' 'a'), (taskId '2' 'c', taskId '2' 'b'),
      (taskId '3' 'b', taskId '3' 'a')]
    (by decide) (by decide) (by decide)

theorem acyclic_threeRecipes : Acyclic fun dep tid => dep ∈
    threeRecipes.depends tid := by
  apply TaskEntries.acyclic_ofEdges fun tid =>
    if tid ∈ [taskId '1' 'a', taskId '2' 'b', taskId '3' 'a'] then 0 else 1
  decide

theorem prioMaps_right_iff_threeRecipes :
    ∃ weight completion,
      threeRecipes.calculateTaskWeights threeRecipes.endpoints =
        some (.ok weight) ∧
      completionPrioMap TaskId.rsplit threeRecipes.runtaskentries weight =
        some completion ∧
      let speed := speedPrioMap threeRecipes.runtaskentries weight
      let recipes := taskLists TaskId.rsplit speed
      (PrioMapsRight threeRecipes speed completion
        (mergedTasks TaskId.rsplit speed) ↔
        (Consistent recipes → MergedInOrder recipes)) :=
  prioMaps_right_iff threeRecipes acyclic_threeRecipes

def calculatedWeight (tid : TaskId) : ℕ :=
  match threeRecipes.calculateTaskWeights threeRecipes.endpoints with
  | some (.ok weight) => weight tid
  | _ => 0

/-- `b` is put before `a`, in front of `c`. -/
theorem threeRecipes_not_right :
    ∃ weight completion,
      threeRecipes.calculateTaskWeights threeRecipes.endpoints =
        some (.ok weight) ∧
      completionPrioMap TaskId.rsplit threeRecipes.runtaskentries weight =
        some completion ∧
      ¬ PrioMapsRight threeRecipes
        (speedPrioMap threeRecipes.runtaskentries weight) completion
        (mergedTasks TaskId.rsplit
          (speedPrioMap threeRecipes.runtaskentries weight)) := by
  rcases threeRecipes.calculateTaskWeights_cases with
    ⟨-, weight, calculated, -⟩ | ⟨cyclic, -⟩
  swap
  · exact absurd acyclic_threeRecipes cyclic
  have same : weight = calculatedWeight := by
    funext tid
    rw [calculatedWeight, calculated]
  have recipes : taskLists TaskId.rsplit
      (speedPrioMap threeRecipes.runtaskentries calculatedWeight) =
        [[['a'], ['c']], [['b'], ['c']], [['a'], ['b']]] := by
    decide +kernel
  have completed : (completionPrioMap TaskId.rsplit threeRecipes.runtaskentries
      calculatedWeight).isSome := by
    decide +kernel
  obtain ⟨completion, found⟩ := Option.isSome_iff_exists.mp completed
  subst same
  refine ⟨calculatedWeight, completion, calculated, found, ?_⟩
  intro right
  have ordered := right.mergedOrder
  rw [mergedTasks, recipes] at ordered
  have consistent :
      Consistent [[['a'], ['c']], [['b'], ['c']], [['a'], ['b']]] :=
    ⟨[['a'], ['b'], ['c']], by decide, by decide⟩
  have third := ordered consistent [['a'], ['b']] (by decide)
  exact absurd third (by decide)

end Nvbmc.RunQueue
