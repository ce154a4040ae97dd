import Mathlib.Data.List.Dedup
import Nvbmc.Library.Words
import Nvbmc.Prepare.TaskData

/-!
# The tasks of the recipes

`TaskData.add_tasks`.  A recipe that fails because of a dependency that has
failed is an error here; what `fail_fn` then takes out of the lists of providers
is left out, as is `add_extra_deps`.
-/

namespace Nvbmc.Prepare

open Nvbmc.Library

/-- `dataCache.task_deps[fn]`; a flag that no task has is an empty dictionary.
A task name has no colon. -/
structure TaskDeps where
  tasks : List Text
  parents : Dict Text (List Text)
  deptask : Dict Text Text
  rdeptask : Dict Text Text
  recrdeptask : Dict Text Text
  recideptask : Dict Text Text
  depends : Dict Text Text
  rdepends : Dict Text Text
  mcdepends : Dict Text Text
  cut : ∀ task ∈ tasks, ':' ∉ task

/-- The parsed recipes of a multiconfig. -/
structure DataCache where
  taskDeps : Dict Text TaskDeps
  deps : Dict Text (List Text)
  rundeps : Dict Text (Dict Text (List Text))
  runrecs : Dict Text (Dict Text (List Text))

inductive AddError where
  /-- `KeyError` on a recipe or a task. -/
  | keyError (name : Text)
  /-- "Trying to re-add a failed file? Something is broken...". -/
  | failedAgain (fn : Text)
  /-- "Error for %s:%s[%s], dependency %s in '%s' does not contain exactly one
  ':' character.". -/
  | notOneColon (fn task dep : Text)
  /-- "Error for %s:%s[%s], multiconfig dependency %s does not contain exactly
  four ':' characters.". -/
  | notFourColons (fn task dep : Text)
  /-- `fail_fn`. -/
  | failed (fn : Text)

namespace TaskData

/-- `seen_build_target`. -/
def seenBuildTarget (data : TaskData) (name : Text) : TaskData :=
  if data.buildTargets.contains name then data
  else { data with buildTargets := data.buildTargets.set name [] }

/-- `seen_run_target`. -/
def seenRunTarget (data : TaskData) (name : Text) : TaskData :=
  if data.runTargets.contains name then data
  else { data with runTargets := data.runTargets.set name [] }

/-- The pairs `handle_deps` reads. -/
def handleDeps (fn task : Text) (flag : Dict Text Text) :
    Except AddError (List (Text × Text)) :=
  match flag.get? task with
  | none => .ok []
  | some value => (words value).mapM fun dep =>
      match dep.splitOn ':' with
      | [first, second] => .ok (first, second)
      | _ => .error (.notOneColon fn task dep)

/-- `add_mcdepends`. -/
def addMcdepends (fn : Text) (taskDeps : TaskDeps) (data : TaskData)
    (task : Text) : Except AddError TaskData :=
  match taskDeps.mcdepends.get? task with
  | none => .ok data
  | some value => (words value).foldlM (fun data dep =>
      if (dep.splitOn ':').length ≠ 5 then .error (.notFourColons fn task dep)
      else if dep ∈ data.mcdepends then .ok data
      else .ok { data with mcdepends := data.mcdepends ++ [dep] }) data

/-- The task entry that `add_tasks` makes. -/
def taskEntry (fn : Text) (taskDeps : TaskDeps) (task : Text) :
    Except AddError TaskEntry := do
  match taskDeps.parents.get? task with
  | none => .error (.keyError task)
  | some parents => do
      let idepends ← handleDeps fn task taskDeps.depends
      let irdepends ← handleDeps fn task taskDeps.rdepends
      return ⟨(parents.filter (· ∈ taskDeps.tasks)).map (Tid.of fn), idepends,
        irdepends⟩

/-- One round of the loop of `add_tasks`. -/
def addTask (fn : Text) (taskDeps : TaskDeps) (data : TaskData) (task : Text) :
    Except AddError TaskData := do
  let entry ← taskEntry fn taskDeps task
  let data := { data with
      taskentries := data.taskentries.set (Tid.of fn task) entry }
  let data := (entry.idepends.map Prod.fst).foldl seenBuildTarget data
  let data := (entry.irdepends.map Prod.fst).foldl seenRunTarget data
  addMcdepends fn taskDeps data task

/-- `self.depids[fn]` and `self.rdepids[fn]`. -/
def addDepids (dataCache : DataCache) (fn : Text) (data : TaskData) :
    TaskData :=
  let depids := ((dataCache.deps.get? fn).getD []).dedup
  let rdepids := ((((dataCache.rundeps.get? fn).getD []).flatMap Prod.snd) ++
    (((dataCache.runrecs.get? fn).getD []).flatMap Prod.snd)).dedup
  { data with
    depids := if data.depids.contains fn then data.depids
              else data.depids.set fn depids
    rdepids := if data.rdepids.contains fn then data.rdepids
               else data.rdepids.set fn rdepids }

/-- The dependencies are seen until one has failed. -/
def seeDeps (fn : Text) (see : TaskData → Text → TaskData)
    (failed : TaskData → List Text)
    (data : TaskData) (deps : List Text) : Except AddError TaskData :=
  deps.foldlM (fun data dep =>
    if dep ∈ failed (see data dep) then .error (.failed fn)
    else .ok (see data dep)) data

/-- `add_tasks`. -/
def addTasks (dataCache : DataCache) (data : TaskData) (fn : Text) :
    Except AddError TaskData :=
  match dataCache.taskDeps.get? fn with
  | none => .error (.keyError fn)
  | some taskDeps =>
      if fn ∈ data.failedFns then .error (.failedAgain fn)
      else if fn ∈ data.seenfns then .ok data
      else do
        let data := { data with seenfns := data.seenfns ++ [fn] }
        let data ← taskDeps.tasks.foldlM (addTask fn taskDeps) data
        let data := data.addDepids dataCache fn
        let data ← seeDeps fn seenBuildTarget failedDeps data
          ((data.depids.get? fn).getD [])
        seeDeps fn seenRunTarget failedRdeps data
          ((data.rdepids.get? fn).getD [])

/-- `TaskData()`. -/
def new : TaskData where
  buildTargets := []
  runTargets := []
  seenfns := []
  taskentries := []
  depids := []
  rdepids := []
  failedDeps := []
  failedRdeps := []
  failedFns := []
  mcdepends := []

/-- Task data without failed recipes: recipes are added one after another, and
in between the lists of providers and of failed dependencies change in any way.
-/
inductive Built (dataCache : DataCache) : TaskData → Prop where
  | new : Built dataCache new
  | addTasks {data data' : TaskData} {fn : Text} (built : Built dataCache data)
      (added : data.addTasks dataCache fn = .ok data') : Built dataCache data'
  | provide {data : TaskData} (built : Built dataCache data)
      (buildTargets runTargets : Dict Text (List Text))
      (failedDeps failedRdeps : List Text) :
      Built dataCache { data with
        buildTargets := buildTargets
        runTargets := runTargets
        failedDeps := failedDeps
        failedRdeps := failedRdeps }

end TaskData

end Nvbmc.Prepare
