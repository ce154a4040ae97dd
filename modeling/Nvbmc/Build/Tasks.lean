import Mathlib.Data.List.Nodup
import Nvbmc.Library.Dict
import Nvbmc.Library.Words

/-!
# Tasks

`addtask` and `deltask` keep the list `__BBTASKS` and the flags "task" and
"deps" of the tasks.
-/

namespace Nvbmc.Build

open Nvbmc.Library

structure TaskFlags where
  task : Bool
  deps : Option (List Text)

/-- `__BBTASKS`, which is empty if it is not set, and the flags of the
variables. -/
structure TaskData where
  bbtasks : List Text
  flags : Dict Text TaskFlags

def ensureTaskPrefix (name : Text) : Text :=
  if name.take 3 ≠ "do_".toList then "do_".toList ++ name else name

namespace TaskData

def empty : TaskData :=
  ⟨[], []⟩

def flagsOf (d : TaskData) (name : Text) : TaskFlags :=
  (d.flags.get? name).getD ⟨false, none⟩

def isTask (d : TaskData) (name : Text) : Bool :=
  (d.flagsOf name).task

def deps (d : TaskData) (name : Text) : Option (List Text) :=
  (d.flagsOf name).deps

/-- `d.getVarFlag(name, 'deps', False) or []`. -/
def depsOrNone (d : TaskData) (name : Text) : List Text :=
  (d.deps name).getD []

def setTask (d : TaskData) (name : Text) (task : Bool) : TaskData :=
  { d with flags := d.flags.set name { d.flagsOf name with task := task } }

def setDeps (d : TaskData) (name : Text) (deps : Option (List Text)) :
    TaskData :=
  { d with flags := d.flags.set name { d.flagsOf name with deps := deps } }

def existingWith (existing : List Text) (entry : Text) : List Text :=
  if ensureTaskPrefix entry ∈ existing then existing
  else existing ++ [ensureTaskPrefix entry]

/-- One entry of the tasks that the task comes before. -/
def addBefore (task : Text) (d : TaskData) (entry : Text) : TaskData :=
  let entry := ensureTaskPrefix entry
  let existing := d.depsOrNone entry
  if task ∈ existing then d else d.setDeps entry (some (task :: existing))

/-- The task is marked, and is in the list once. -/
def enlist (d : TaskData) (task : Text) : TaskData :=
  { d.setTask task true with
    bbtasks := if task ∈ d.bbtasks then d.bbtasks else d.bbtasks ++ [task] }

/-- The mark and the task in the list are removed, if it is there. -/
def delist (d : TaskData) (task : Text) : TaskData :=
  if task ∈ d.bbtasks then
    { d.setTask task false with bbtasks := d.bbtasks.erase task }
  else d

def addtask (d : TaskData) (task : Text) (before after : Option Text) :
    TaskData :=
  let task := ensureTaskPrefix task
  let d := d.enlist task
  let existing := (after.elim [] words).foldl existingWith (d.depsOrNone task)
  let d := d.setDeps task (some existing)
  (before.elim [] words).foldl (addBefore task) d

/-- The task is taken out of what another one depends on. -/
def dropDep (task : Text) (d : TaskData) (bbtask : Text) : TaskData :=
  let deps := d.depsOrNone bbtask
  if task ∈ deps then d.setDeps bbtask (some (deps.erase task)) else d

def deltask (d : TaskData) (task : Text) : TaskData :=
  let task := ensureTaskPrefix task
  let d := (d.delist task).setDeps task none
  d.bbtasks.foldl (dropDep task) d

section Flags

variable {d : TaskData} {name other : Text} (deps : Option (List Text))

@[simp] theorem bbtasks_setDeps : (d.setDeps name deps).bbtasks = d.bbtasks :=
  rfl

variable (task : Bool)

theorem flagsOf_setTask : (d.setTask name task).flagsOf other =
    if other = name then { d.flagsOf name with task := task }
    else d.flagsOf other := by
  rw [flagsOf, setTask]
  dsimp only
  rw [Dict.get?_set]
  split_ifs <;> rfl

theorem flagsOf_setDeps : (d.setDeps name deps).flagsOf other =
    if other = name then { d.flagsOf name with deps := deps }
    else d.flagsOf other := by
  rw [flagsOf, setDeps]
  dsimp only
  rw [Dict.get?_set]
  split_ifs <;> rfl

@[simp] theorem isTask_setTask : (d.setTask name task).isTask other =
    if other = name then task else d.isTask other := by
  rw [isTask, flagsOf_setTask, apply_ite TaskFlags.task]
  rfl

@[simp] theorem deps_setTask : (d.setTask name task).deps other =
    d.deps other := by
  rw [deps, flagsOf_setTask, deps]
  split_ifs with same
  · rw [same]
  · rfl

@[simp] theorem isTask_setDeps : (d.setDeps name deps).isTask other =
    d.isTask other := by
  rw [isTask, flagsOf_setDeps, isTask]
  split_ifs with same
  · rw [same]
  · rfl

@[simp] theorem deps_setDeps : (d.setDeps name deps).deps other =
    if other = name then deps else d.deps other := by
  rw [TaskData.deps, flagsOf_setDeps, apply_ite TaskFlags.deps]
  rfl

@[simp] theorem depsOrNone_setTask :
    (d.setTask name task).depsOrNone other = d.depsOrNone other := by
  rw [depsOrNone, deps_setTask, depsOrNone]

@[simp] theorem depsOrNone_setDeps : (d.setDeps name deps).depsOrNone other =
      if other = name then deps.getD [] else d.depsOrNone other := by
  rw [depsOrNone, deps_setDeps, apply_ite (Option.getD · []), ← depsOrNone]

@[simp] theorem isTask_enlist : (d.enlist name).isTask other =
    if other = name then true else d.isTask other :=
  isTask_setTask true

@[simp] theorem deps_enlist : (d.enlist name).deps other = d.deps other :=
  deps_setTask true

@[simp] theorem depsOrNone_enlist : (d.enlist name).depsOrNone other =
    d.depsOrNone other :=
  depsOrNone_setTask true

theorem mem_bbtasks_enlist : other ∈ (d.enlist name).bbtasks ↔
    other ∈ d.bbtasks ∨ other = name := by
  rw [enlist]
  dsimp only
  split_ifs with present
  · constructor
    · exact .inl
    · rintro (old | rfl)
      · exact old
      · exact present
  · simp

theorem isTask_delist : (d.delist name).isTask other =
    if other = name ∧ name ∈ d.bbtasks then false else d.isTask other := by
  rw [delist]
  split_ifs with present both apart
  · exact (isTask_setTask false).trans (if_pos both.1)
  · exact (isTask_setTask false).trans (if_neg fun same => both ⟨same, present⟩)
  · exact absurd apart.2 present
  · rfl

@[simp] theorem deps_delist : (d.delist name).deps other = d.deps other := by
  rw [delist]
  split_ifs
  · exact deps_setTask false
  · rfl

@[simp] theorem depsOrNone_delist : (d.delist name).depsOrNone other =
    d.depsOrNone other := by
  rw [depsOrNone, deps_delist, depsOrNone]

theorem mem_bbtasks_delist (nodup : d.bbtasks.Nodup) :
    other ∈ (d.delist name).bbtasks ↔ other ∈ d.bbtasks ∧ other ≠ name := by
  rw [delist]
  split_ifs with present
  · rw [nodup.mem_erase_iff, and_comm]
  · constructor
    · intro old
      exact ⟨old, fun same => present (same ▸ old)⟩
    · exact And.left

end Flags

/-- The tasks are those of the list, and the dependencies have no duplicates. -/
structure WellFormed (d : TaskData) : Prop where
  listed : ∀ name, d.isTask name = true ↔ name ∈ d.bbtasks
  nodup : d.bbtasks.Nodup
  hasDeps : ∀ name ∈ d.bbtasks, (d.deps name).isSome
  nodupDeps : ∀ name, (d.depsOrNone name).Nodup
  nodupKeys : d.flags.keys.Nodup

/-- Only dependencies differ, and none that is there is taken away whole. -/
structure SameTasks (d d' : TaskData) : Prop where
  bbtasks : d'.bbtasks = d.bbtasks
  isTask : ∀ name, d'.isTask name = d.isTask name
  isSome : ∀ name, (d.deps name).isSome → (d'.deps name).isSome
  nodupKeys : d.flags.keys.Nodup → d'.flags.keys.Nodup

section Loops

variable {d d' d'' : TaskData} {task name entry : Text} {entries : List Text}

theorem SameTasks.refl (d : TaskData) : SameTasks d d :=
  ⟨rfl, fun _ => rfl, fun _ => id, id⟩

theorem SameTasks.trans (first : SameTasks d d') (second : SameTasks d' d'') :
    SameTasks d d'' where
  bbtasks := second.bbtasks.trans first.bbtasks
  isTask name := (second.isTask name).trans (first.isTask name)
  isSome name isSome := second.isSome name (first.isSome name isSome)
  nodupKeys nodup := second.nodupKeys (first.nodupKeys nodup)

theorem sameTasks_setDeps (deps : List Text) :
    SameTasks d (d.setDeps name (some deps)) := by
  constructor
  · rfl
  · intro other
    exact isTask_setDeps _
  · intro other isSome
    rw [deps_setDeps]
    split_ifs
    · rfl
    · exact isSome
  · intro nodup
    exact Dict.nodup_keys_set nodup _ _

variable {dep : Text}

theorem mem_foldl_existingWith {existing : List Text} :
    dep ∈ entries.foldl existingWith existing ↔
      dep ∈ existing ∨ ∃ entry ∈ entries, ensureTaskPrefix entry = dep := by
  induction entries generalizing existing with
  | nil => simp
  | cons entry entries induction =>
      rw [List.foldl_cons, induction, existingWith]
      split_ifs with present
      · simp only [List.mem_cons, exists_eq_or_imp]
        constructor
        · rintro (old | later)
          · exact .inl old
          · exact .inr (.inr later)
        · rintro (old | rfl | later)
          · exact .inl old
          · exact .inl present
          · exact .inr later
      · simp [eq_comm, or_assoc]

theorem nodup_foldl_existingWith {existing : List Text}
    (nodup : existing.Nodup) : (entries.foldl existingWith existing).Nodup := by
  induction entries generalizing existing with
  | nil => exact nodup
  | cons entry entries induction =>
      rw [List.foldl_cons]
      apply induction
      rw [existingWith]
      split_ifs with present
      · exact nodup
      · exact List.Nodup.append nodup (List.nodup_singleton _)
          (by simpa using present)

theorem sameTasks_addBefore : SameTasks d (addBefore task d entry) := by
  rw [addBefore]
  split_ifs
  · exact .refl d
  · exact sameTasks_setDeps _

theorem sameTasks_foldl_addBefore :
    SameTasks d (entries.foldl (addBefore task) d) := by
  induction entries generalizing d with
  | nil => exact .refl d
  | cons entry entries induction => exact sameTasks_addBefore.trans induction

theorem mem_addBefore : dep ∈ (addBefore task d entry).depsOrNone name ↔
    dep ∈ d.depsOrNone name ∨ dep = task ∧ ensureTaskPrefix entry = name := by
  rw [addBefore]
  split_ifs with present
  · constructor
    · exact .inl
    · rintro (old | ⟨rfl, rfl⟩)
      · exact old
      · exact present
  · rw [depsOrNone_setDeps]
    split_ifs with same
    · subst same
      simp [or_comm]
    · simp [Ne.symm same]

theorem mem_foldl_addBefore :
    dep ∈ (entries.foldl (addBefore task) d).depsOrNone name ↔
      dep ∈ d.depsOrNone name ∨ dep = task ∧ ∃ entry ∈ entries,
        ensureTaskPrefix entry = name := by
  induction entries generalizing d with
  | nil => simp
  | cons entry entries induction =>
      rw [List.foldl_cons, induction, mem_addBefore]
      simp [or_assoc, and_or_left]

theorem nodup_foldl_addBefore (nodup : ∀ name, (d.depsOrNone name).Nodup) :
    ∀ name, ((entries.foldl (addBefore task) d).depsOrNone name).Nodup := by
  induction entries generalizing d with
  | nil => exact nodup
  | cons entry entries induction =>
      apply induction
      intro name
      rw [addBefore]
      split_ifs with present
      · exact nodup name
      · rw [depsOrNone_setDeps]
        split_ifs with same
        · subst same
          exact List.nodup_cons.mpr ⟨present, nodup _⟩
        · exact nodup name

theorem sameTasks_dropDep : SameTasks d (dropDep task d entry) := by
  rw [dropDep]
  split_ifs
  · exact sameTasks_setDeps _
  · exact .refl d

theorem sameTasks_foldl_dropDep :
    SameTasks d (entries.foldl (dropDep task) d) := by
  induction entries generalizing d with
  | nil => exact .refl d
  | cons entry entries induction => exact sameTasks_dropDep.trans induction

variable (nodup : ∀ name, (d.depsOrNone name).Nodup)
include nodup

theorem nodup_dropDep :
    ∀ name, ((dropDep task d entry).depsOrNone name).Nodup := by
  intro name
  rw [dropDep]
  split_ifs with present
  · rw [depsOrNone_setDeps]
    split_ifs with same
    · exact (nodup entry).erase task
    · exact nodup name
  · exact nodup name

theorem mem_dropDep :
    dep ∈ (dropDep task d entry).depsOrNone name ↔
      dep ∈ d.depsOrNone name ∧ ¬ (dep = task ∧ name = entry) := by
  rw [dropDep]
  split_ifs with present
  · rw [depsOrNone_setDeps]
    split_ifs with same
    · subst same
      rw [Option.getD_some, (nodup name).mem_erase_iff]
      simp [and_comm]
    · simp [same]
  · constructor
    · intro old
      refine ⟨old, ?_⟩
      rintro ⟨rfl, rfl⟩
      exact present old
    · exact And.left

theorem mem_foldl_dropDep :
    dep ∈ (entries.foldl (dropDep task) d).depsOrNone name ↔
      dep ∈ d.depsOrNone name ∧ ¬ (dep = task ∧ name ∈ entries) := by
  induction entries generalizing d with
  | nil => simp
  | cons entry entries induction =>
      rw [List.foldl_cons, induction (nodup_dropDep nodup), mem_dropDep nodup]
      simp only [List.mem_cons]
      tauto

theorem nodup_foldl_dropDep :
    ∀ name, ((entries.foldl (dropDep task) d).depsOrNone name).Nodup := by
  induction entries generalizing d with
  | nil => exact nodup
  | cons entry entries induction => exact induction (nodup_dropDep nodup)

end Loops

section Statements

variable {d : TaskData} {task name dep : Text} {before after : Option Text}

/-- The names in an argument of `addtask`. -/
def named (list : Option Text) : List Text :=
  (list.elim [] words).map ensureTaskPrefix

theorem sameTasks_addtask : SameTasks (d.enlist (ensureTaskPrefix task))
    (d.addtask task before after) := by
  rw [addtask]
  exact (sameTasks_setDeps _).trans sameTasks_foldl_addBefore

theorem mem_bbtasks_addtask : name ∈ (d.addtask task before after).bbtasks ↔
    name ∈ d.bbtasks ∨ name = ensureTaskPrefix task := by
  rw [sameTasks_addtask.bbtasks, mem_bbtasks_enlist]

theorem mem_depsOrNone_addtask :
    dep ∈ (d.addtask task before after).depsOrNone name ↔
    (dep ∈ d.depsOrNone name ∨ name = ensureTaskPrefix task ∧
      dep ∈ named after) ∨
      dep = ensureTaskPrefix task ∧ name ∈ named before := by
  have isAfter : (∃ entry ∈ after.elim [] words, ensureTaskPrefix entry = dep) ↔
      dep ∈ named after := by simp [named]
  have isBefore : (∃ entry ∈ before.elim [] words, ensureTaskPrefix entry =
      name) ↔
      name ∈ named before := by simp [named]
  rw [addtask, mem_foldl_addBefore, isBefore]
  apply or_congr_left
  rw [depsOrNone_setDeps]
  split_ifs with same
  · rw [Option.getD_some, mem_foldl_existingWith, isAfter]
    simp [same]
  · simp [same]

theorem WellFormed.addtask (wellFormed : WellFormed d) :
    WellFormed (d.addtask task before after) := by
  have same := @sameTasks_addtask d task before after
  constructor
  · intro other
    rw [same.isTask, isTask_enlist, mem_bbtasks_addtask, ← wellFormed.listed]
    split_ifs with isNew
    · simp [isNew]
    · simp [isNew]
  · rw [same.bbtasks, enlist]
    dsimp only
    split_ifs with present
    · exact wellFormed.nodup
    · exact List.Nodup.append wellFormed.nodup (List.nodup_singleton _)
        (by simpa using present)
  · intro other isListed
    rw [TaskData.addtask]
    apply sameTasks_foldl_addBefore.isSome
    rw [deps_setDeps]
    split_ifs with isNew
    · rfl
    · rw [deps_enlist]
      apply wellFormed.hasDeps
      exact (mem_bbtasks_addtask.mp isListed).resolve_right isNew
  · rw [TaskData.addtask]
    apply nodup_foldl_addBefore
    intro other
    rw [depsOrNone_setDeps, depsOrNone_enlist, depsOrNone_enlist]
    split_ifs
    · exact nodup_foldl_existingWith (wellFormed.nodupDeps _)
    · exact wellFormed.nodupDeps other
  · apply same.nodupKeys
    exact Dict.nodup_keys_set wellFormed.nodupKeys _ _

theorem mem_bbtasks_deltask (nodup : d.bbtasks.Nodup) :
    name ∈ (d.deltask task).bbtasks ↔
    name ∈ d.bbtasks ∧ name ≠ ensureTaskPrefix task := by
  rw [deltask, sameTasks_foldl_dropDep.bbtasks, bbtasks_setDeps,
    mem_bbtasks_delist nodup]

theorem mem_depsOrNone_deltask (wellFormed : WellFormed d) :
    dep ∈ (d.deltask task).depsOrNone name ↔ dep ∈ d.depsOrNone name ∧
      name ≠ ensureTaskPrefix task ∧
        ¬ (dep = ensureTaskPrefix task ∧ name ∈ d.bbtasks) := by
  have nodup : ∀ other,
      (((d.delist (ensureTaskPrefix task)).setDeps (ensureTaskPrefix task)
      none).depsOrNone other).Nodup := by
    intro other
    rw [depsOrNone_setDeps, depsOrNone_delist]
    split_ifs
    · exact List.nodup_nil
    · exact wellFormed.nodupDeps other
  rw [deltask, mem_foldl_dropDep nodup, depsOrNone_setDeps, depsOrNone_delist,
    bbtasks_setDeps, mem_bbtasks_delist wellFormed.nodup]
  split_ifs with isTask
  · simp [isTask]
  · simp [isTask]

theorem WellFormed.deltask (wellFormed : WellFormed d) :
    WellFormed (d.deltask task) := by
  have inList := fun other => @mem_bbtasks_deltask d task other wellFormed.nodup
  have same : SameTasks
      ((d.delist (ensureTaskPrefix task)).setDeps (ensureTaskPrefix task) none)
      (d.deltask task) := sameTasks_foldl_dropDep
  constructor
  · intro other
    have wasListed := wellFormed.listed other
    rw [same.isTask, isTask_setDeps, isTask_delist, inList]
    by_cases isTask : other = ensureTaskPrefix task
    · rw [isTask] at wasListed ⊢
      by_cases isListed : ensureTaskPrefix task ∈ d.bbtasks
      · simp [isListed]
      · simp [isListed, mt wasListed.mp isListed]
    · simp [isTask, wasListed]
  · rw [same.bbtasks, bbtasks_setDeps, delist]
    split_ifs
    · exact wellFormed.nodup.erase _
    · exact wellFormed.nodup
  · intro other isListed
    obtain ⟨old, isOther⟩ := (inList other).mp isListed
    apply same.isSome
    rw [deps_setDeps, if_neg isOther, deps_delist]
    exact wellFormed.hasDeps other old
  · rw [TaskData.deltask]
    apply nodup_foldl_dropDep
    intro other
    rw [depsOrNone_setDeps, depsOrNone_delist]
    split_ifs
    · exact List.nodup_nil
    · exact wellFormed.nodupDeps other
  · apply same.nodupKeys
    apply Dict.nodup_keys_set
    rw [delist]
    split_ifs
    · exact Dict.nodup_keys_set wellFormed.nodupKeys _ _
    · exact wellFormed.nodupKeys

end Statements

/-- A call of `addtask` or of `deltask`. -/
inductive TaskCall where
  | addtask (task : Text) (before after : Option Text)
  | deltask (task : Text)

def perform (d : TaskData) : TaskCall → TaskData
  | .addtask task before after => d.addtask task before after
  | .deltask task => d.deltask task

def run (calls : List TaskCall) : TaskData :=
  calls.foldl perform empty

theorem wellFormed_empty : WellFormed empty := by
  constructor <;> simp [empty, isTask, depsOrNone, deps, flagsOf, Dict.keys]

theorem WellFormed.perform {d : TaskData} (wellFormed : WellFormed d)
    (call : TaskCall) : WellFormed (d.perform call) := by
  cases call with
  | addtask task before after => exact wellFormed.addtask
  | deltask task => exact wellFormed.deltask

theorem wellFormed_run (calls : List TaskCall) : WellFormed (run calls) := by
  induction calls using List.reverseRecOn with
  | nil => exact wellFormed_empty
  | append_singleton calls call induction =>
      rw [run, List.foldl_concat]
      exact induction.perform call

end TaskData

end Nvbmc.Build
