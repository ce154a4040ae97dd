import Nvbmc.Library.Marking
import Nvbmc.Prepare.TaskData

/-!
# Marking and pruning

Steps B and C of `prepare`, and the reverse dependencies step D starts with.
Python sets are lists whose order stands for the order of iteration.  What only
goes to the signature generator, `--force`, is left out.
-/

namespace Nvbmc.Prepare

open Nvbmc.Library

/-- What steps B and C fill in. -/
structure Active where
  runqBuild : List Tid
  targetTids : List Tid

/-- The lists of names `--runall` and `--runonly` give. -/
structure Configuration where
  runall : List Text
  runonly : List Text

/-- The name with `do_` in front of it. -/
def doTask (task : Text) : Text :=
  if "do_".toList <+: task then task else "do_".toList ++ task

namespace RunQueueData

variable (rq : RunQueueData)

/-- `self.runtaskentries[tid].depends`. -/
def dependsOf (tid : Tid) : Except PrepareError (List Tid) :=
  match rq.runtaskentries.get? tid with
  | none => .error (.keyError tid)
  | some entry => .ok entry.depends

/-- `mark_active`, with the entries it has marked. -/
def markActive (fuel : ℕ) (runqBuild : List Tid) (tid : Tid) :
    Except PrepareError (List Tid) :=
  mark .endless rq.dependsOf fuel tid runqBuild

def markTarget (fuel : ℕ) (active : Active) (target : Target) :
    Except PrepareError Active :=
  match rq.taskData.get? target.mc with
  | none => .error (.noMulticonfig target.mc)
  | some taskData =>
      if (taskData.buildTargets.get? target.target).getD [] = [] then .ok active
      else if target.target ∈ taskData.failedDeps then .ok active
      else
        let parents := ['-'] <:+ target.task
        let task := if parents then target.task.dropLast else target.task
        if target.fn ∈ taskData.failedFns then .ok active
        else
          let tid := Tid.of target.fn task
          let targetTids := active.targetTids ++ [tid]
          if ¬ taskData.taskentries.contains tid then
            .error (.noTask task target.target tid)
          else if parents then do
            -- "XXXX-" runs the dependencies only
            let depends ← rq.dependsOf tid
            let runqBuild ← depends.foldlM (rq.markActive fuel) active.runqBuild
            return ⟨runqBuild, targetTids⟩
          else do
            let runqBuild ← rq.markActive fuel active.runqBuild tid
            return ⟨runqBuild, targetTids⟩

/-- One name of `--runall`: the tasks it adds, and the marks of all tasks so
far. -/
def runallTask (fuel : ℕ) (reducedTasklist : List Tid)
    (state : List Tid × Active) (task : Text) :
    Except PrepareError (List Tid × Active) := do
  let wanted :=
    (reducedTasklist.map fun tid => Tid.of (fnFromTid tid) (doTask task)).filter
    fun wanttid => rq.runtaskentries.contains wanttid
  let runallTids := (state.1 ++ wanted).dedup
  let runqBuild ← runallTids.foldlM (rq.markActive fuel) state.2.runqBuild
  return (runallTids, ⟨runqBuild, state.2.targetTids ++ runallTids⟩)

/-- `while added`, at most as often as the second number says. -/
def runallLoop (fuel : ℕ) (runall : List Text) :
    ℕ → List Tid → Active → Except PrepareError Active
  | 0, _, _ => .error .endless
  | rounds + 1, orig, active => do
      let reducedTasklist :=
        rq.runtaskentries.keys.filter (· ∈ active.runqBuild)
      let (runallTids, active) ← runall.foldlM
        (rq.runallTask fuel reducedTasklist)
        ([], { active with runqBuild := [] })
      if ∃ tid ∈ runallTids, tid ∉ orig then
        runallLoop fuel runall rounds runallTids active
      else return active

/-- Deletes the entries that are not marked. -/
def keep (runqBuild : List Tid) : RunQueueData :=
  { rq with
    runtaskentries :=
      rq.runtaskentries.filter fun entry => entry.1 ∈ runqBuild }

/-- One name of `--runonly`. -/
def runonlyTask (fuel : ℕ) (runqBuild : List Tid) (task : Text) :
    Except PrepareError (List Tid) :=
  (rq.runtaskentries.keys.filter fun tid => tasknameFromTid tid =
    doTask task).foldlM (rq.markActive fuel) runqBuild

/-- `self.runtaskentries[dep].revdeps.add(tid)`. -/
def addRevdep (rq : RunQueueData) (edge : Tid × Tid) :
    Except PrepareError RunQueueData :=
  match rq.runtaskentries.get? edge.2 with
  | none => .error (.keyError edge.2)
  | some entry =>
      let entry := { entry with revdeps := insert edge.1 entry.revdeps }
      .ok { rq with runtaskentries := rq.runtaskentries.set edge.2 entry }

def addRevdeps : Except PrepareError RunQueueData :=
  (rq.runtaskentries.flatMap fun entry => entry.2.depends.map fun dep =>
    (entry.1, dep)).foldlM addRevdep rq

/-- Step B and what step C does for `--runall`. -/
def markAll (fuel : ℕ) (runall : List Text) : Except PrepareError Active := do
  let active ← rq.targets.foldlM (rq.markTarget fuel) ⟨[], []⟩
  if runall = [] then return active
  else rq.runallLoop fuel runall fuel [] active

/-- What step C does for `--runonly`. -/
def keepOnly (fuel : ℕ) (runonly : List Text) :
    Except PrepareError RunQueueData :=
  if runonly = [] then .ok rq
  else do
    let runqBuild ← runonly.foldlM (rq.runonlyTask fuel) []
    if (rq.keep runqBuild).runtaskentries = [] then .error (.noRunonly runonly)
    else return rq.keep runqBuild

/-- Steps B and C and the reverse dependencies. -/
def prune (fuel : ℕ) (configuration : Configuration) :
    Except PrepareError RunQueueData := do
  let active ← rq.markAll fuel configuration.runall
  let kept := { rq.keep active.runqBuild with targetTids := active.targetTids }
  if configuration.runall ≠ [] ∧ kept.runtaskentries = [] then
    .error (.noRunall configuration.runall)
  else do
    let kept ← kept.keepOnly fuel configuration.runonly
    if kept.runtaskentries = [] then .error .noActive
    else kept.addRevdeps

end RunQueueData

end Nvbmc.Prepare
