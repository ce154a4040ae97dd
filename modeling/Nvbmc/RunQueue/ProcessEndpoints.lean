import Nvbmc.RunQueue.SceneQueueData

/-!
# What one wave of `process_endpoints` does

The loop body is described once, by what it changes in the four dictionaries.
Both directions of the exactness proof and termination start from that
description and never unfold the loop again.
-/

namespace Nvbmc.RunQueue

open Nvbmc.Library

variable {Tid : Type} [LinearOrder Tid] (rqdata : RunQueueData Tid)

namespace SceneCollapse

variable {dict : Tid → List Tid}

@[simp] theorem mem_removeFrom {key value other member : Tid} :
    member ∈ removeFrom dict key value other ↔
      member ∈ dict other ∧ ¬ (other = key ∧ member = value) := by
  by_cases same : other = key
  · subst same
    simp [removeFrom]
  · simp [removeFrom, same]

@[simp] theorem mem_addAll {key other member : Tid} {values : List Tid} :
    member ∈ addAll dict key values other ↔
      member ∈ dict other ∨ (other = key ∧ member ∈ values) := by
  by_cases same : other = key
  · subst same
    simp [addAll, or_comm]
  · simp [addAll, same]

@[simp] theorem mem_addTo {key value other member : Tid} :
    member ∈ addTo dict key value other ↔
      member ∈ dict other ∨ (other = key ∧ member = value) := by
  simp [addTo]

theorem mem_foldl_addTo {tasks : List Tid} {point other member : Tid} :
    member ∈ tasks.foldl (fun deps t => addTo deps t point) dict other ↔
      member ∈ dict other ∨ (other ∈ tasks ∧ member = point) := by
  induction tasks generalizing dict with
  | nil => simp
  | cons task tasks induction =>
      simp only [List.foldl_cons, induction, mem_addTo, List.mem_cons]
      grind

end SceneCollapse

open SceneCollapse

namespace RunQueueData

/-- The loop over `depends` in `process_endpoints`, for any list of
dependencies of one point. -/
structure DepsProcessed (point : Tid) (task tasks deps : List Tid)
    (before after : SceneCollapse Tid × Endpoints Tid) : Prop where
  sqRevdeps : ∀ {dep tid}, tid ∈ after.1.sqRevdeps dep ↔
    tid ∈ before.1.sqRevdeps dep ∧ ¬ (dep ∈ deps ∧ tid = point)
  squash : ∀ {dep tid}, tid ∈ after.1.sqRevdepsSquash dep ↔
    tid ∈ before.1.sqRevdepsSquash dep ∨ (dep ∈ deps ∧ tid ∈ tasks)
  collated : after.1.sqCollatedDeps = before.1.sqCollatedDeps
  keys : ∀ {dep}, dep ∈ before.2.keys → dep ∈ after.2.keys
  queued : ∀ {dep}, dep ∈ deps → dep ∉ rqdata.runqSetsceneTids →
    after.1.sqRevdeps dep = [] → dep ∈ after.2.keys
  labels : ∀ {dep label}, (dep, label) ∈ after.2 →
    (dep, label) ∈ before.2 ∨ (dep ∈ deps ∧ label = task)

theorem foldl_processDep (point : Tid) (task tasks deps : List Tid)
    (before : SceneCollapse Tid × Endpoints Tid) :
    rqdata.DepsProcessed point task tasks deps before
      (deps.foldl (rqdata.processDep point task tasks) before) := by
  induction deps generalizing before with
  | nil =>
      exact ⟨by simp, by simp, rfl, id, by simp, fun member => .inl member⟩
  | cons head deps induction =>
      have rest := induction (rqdata.processDep point task tasks before head)
      refine ⟨?_, ?_, rest.collated, ?_, ?_, ?_⟩
      · intro dep tid
        rw [List.foldl_cons, rest.sqRevdeps]
        simp only [processDep, mem_removeFrom, List.mem_cons]
        grind
      · intro dep tid
        rw [List.foldl_cons, rest.squash]
        simp only [processDep, mem_addAll, List.mem_cons]
        grind
      · intro dep member
        apply rest.keys
        simp only [processDep]
        split
        · exact (Dict.mem_keys_set ..).mpr (.inr member)
        · exact member
      · intro dep member normal empty
        by_cases later : dep ∈ deps
        · exact rest.queued later normal empty
        have same : dep = head := by simpa [later] using member
        subst same
        apply rest.keys
        have alone : removeFrom before.1.sqRevdeps dep point dep = [] := by
          apply List.eq_nil_iff_forall_not_mem.mpr
          intro tid inside
          have kept := rest.sqRevdeps.mpr ⟨inside, fun found => later found.1⟩
          rw [← List.foldl_cons, empty] at kept
          exact List.not_mem_nil kept
        simp only [processDep, alone, normal, not_false_eq_true, and_self,
          if_true]
        exact (Dict.mem_keys_set ..).mpr (.inl rfl)
      · intro dep label member
        rcases rest.labels member with first | ⟨later, same⟩
        · simp only [processDep] at first
          split at first
          · rcases Dict.mem_of_mem_set first with old | ⟨new, same⟩
            · exact .inl old
            · exact .inr ⟨by simp [new], same⟩
          · exact .inl first
        · exact .inr ⟨List.mem_cons_of_mem _ later, same⟩

theorem processPoint_scene {acc : SceneCollapse Tid × Endpoints Tid}
    {point : Tid} {task : List Tid} (scene : point ∈ rqdata.runqSetsceneTids) :
    rqdata.processPoint acc (point, task) =
      ({ acc.1 with
          sqRevdepsSquash := addAll acc.1.sqRevdepsSquash point task },
        acc.2) := by
  simp [processPoint, scene, addAll]

/-- What `process_endpoints` does with a non-setscene point. -/
structure PointProcessed (point : Tid) (task : List Tid)
    (before after : SceneCollapse Tid × Endpoints Tid) : Prop where
  sqRevdeps : ∀ {dep tid}, tid ∈ after.1.sqRevdeps dep ↔
    tid ∈ before.1.sqRevdeps dep ∧ ¬ (dep ∈ rqdata.depends point ∧ tid = point)
  squash : ∀ {dep tid}, tid ∈ after.1.sqRevdepsSquash dep ↔
    (dep ≠ point ∧ tid ∈ before.1.sqRevdepsSquash dep) ∨
      (dep ∈ rqdata.depends point ∧
        (tid ∈ task ∨ tid ∈ before.1.sqRevdepsSquash point))
  collated : ∀ {tid member}, member ∈ after.1.sqCollatedDeps tid ↔
    member ∈ before.1.sqCollatedDeps tid ∨
      (member = point ∧ (tid ∈ task ∨ tid ∈ before.1.sqRevdepsSquash point))
  keys : ∀ {dep}, dep ∈ before.2.keys → dep ∈ after.2.keys
  queued : ∀ {dep}, dep ∈ rqdata.depends point →
    dep ∉ rqdata.runqSetsceneTids → after.1.sqRevdeps dep = [] →
      dep ∈ after.2.keys
  labels : ∀ {dep label}, (dep, label) ∈ after.2 →
    (dep, label) ∈ before.2 ∨ (dep ∈ rqdata.depends point ∧ label = task)

theorem processPoint_normal (acc : SceneCollapse Tid × Endpoints Tid)
    {point : Tid} (task : List Tid) (normal : point ∉ rqdata.runqSetsceneTids) :
    rqdata.PointProcessed point task acc
      (rqdata.processPoint acc (point, task)) := by
  simp only [processPoint, if_neg normal]
  have deps := rqdata.foldl_processDep point task
    (task ∪ acc.1.sqRevdepsSquash point) (rqdata.depends point)
    ({ acc.1 with
        sqCollatedDeps :=
          (task ∪ acc.1.sqRevdepsSquash point).foldl
            (fun deps t => addTo deps t point) acc.1.sqCollatedDeps
        sqRevdepsSquash :=
          Function.update acc.1.sqRevdepsSquash point [] }, acc.2)
  refine ⟨deps.sqRevdeps, ?_, ?_, deps.keys, deps.queued, deps.labels⟩
  · intro dep tid
    rw [deps.squash]
    by_cases same : dep = point
    · subst same
      simp
    · simp [same]
  · intro tid member
    rw [deps.collated, mem_foldl_addTo]
    simp only [List.mem_union_iff, and_comm]

end RunQueueData

end Nvbmc.RunQueue
