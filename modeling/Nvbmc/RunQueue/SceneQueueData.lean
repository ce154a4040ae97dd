import Nvbmc.Library.Dict
import Nvbmc.RunQueue.TaskGraph

/-!
# Building the scene queue

`build_scenequeue_data` collapses the task graph to its setscene tasks.  The
dictionaries keyed by task are total functions; a key that Python has not
stored yet reads as the empty set.  The recursion of `process_endpoints` and
the `while new` loop carry fuel, and running out of it is an outcome of its own.
-/

namespace Nvbmc.RunQueue

open Nvbmc.Library

variable {Tid : Type} [LinearOrder Tid]

/-- How `build_scenequeue_data` can fail to return. -/
inductive SceneFatal where
  | outOfFuel
  | wentBadlyWrong
  | nonExistentTask
deriving DecidableEq, Repr

/-- The three dictionaries `process_endpoints` edits. -/
structure SceneCollapse (Tid : Type) where
  sqRevdeps : Tid → List Tid
  sqRevdepsSquash : Tid → List Tid
  sqCollatedDeps : Tid → List Tid

/-- `endpoints`: a point and the setscene tasks it was queued for. -/
abbrev Endpoints (Tid : Type) := Dict Tid (List Tid)

/-- `SQData`, as far as `build_scenequeue_data` fills it from the graph. -/
structure SQData (Tid : Type) where
  sqDeps : Tid → List Tid
  sqRevdeps : Tid → List Tid
  sqHarddeps : Tid → List Tid
  sqHarddepsRev : Tid → List Tid
  unskippable : List Tid
  cantskip : List Tid
  sqCoveredTasks : Tid → List Tid

/-- What `build_scenequeue_data` hands to `RunQueueExecute`. -/
structure SceneQueueBuild (Tid : Type) where
  sqdata : SQData Tid
  /-- Arguments of `sqrq.setbuildable`. -/
  setbuildable : List Tid
  tasksScenequeueDone : List Tid
  sqBuildable : List Tid

namespace SceneCollapse

/-- `dict[key].remove(value)` when `value in dict[key]`. -/
def removeFrom (dict : Tid → List Tid) (key value : Tid) : Tid → List Tid :=
  Function.update dict key ((dict key).filter (· ≠ value))

/-- `dict[key] |= values`. -/
def addAll (dict : Tid → List Tid) (key : Tid) (values : List Tid) :
    Tid → List Tid :=
  Function.update dict key (values ∪ dict key)

/-- `dict[key].add(value)`. -/
def addTo (dict : Tid → List Tid) (key value : Tid) : Tid → List Tid :=
  addAll dict key [value]

end SceneCollapse

open SceneCollapse

namespace RunQueueData

variable (rqdata : RunQueueData Tid)

/-- First pass: points without reverse dependencies start the chains. -/
def firstEndpoints : Endpoints Tid :=
  (rqdata.runtaskentries.filter fun tid =>
    rqdata.revdeps tid = [] ∧ tid ∉ rqdata.runqSetsceneTids).map (·, [])

/-- One dependency of one setscene task in the second pass. -/
def addSceneEndpoint (tid : Tid)
    (acc : (Tid → List Tid) × Endpoints Tid) (dep : Tid) :
    (Tid → List Tid) × Endpoints Tid :=
  (removeFrom acc.1 dep tid,
    acc.2.set dep ([tid] ∪ (acc.2.get? dep).getD []))

/-- Second pass: the dependencies of setscene tasks are endpoints too. -/
def sceneEndpoints : (Tid → List Tid) × Endpoints Tid :=
  rqdata.runqSetsceneTids.foldl
    (fun acc tid => (rqdata.depends tid).foldl (addSceneEndpoint tid) acc)
    (rqdata.revdeps, rqdata.firstEndpoints)

/-- One dependency of a non-setscene `point` that carries `tasks`. -/
def processDep (point : Tid) (task tasks : List Tid)
    (acc : SceneCollapse Tid × Endpoints Tid) (dep : Tid) :
    SceneCollapse Tid × Endpoints Tid :=
  let sqRevdeps := removeFrom acc.1.sqRevdeps dep point
  let squash := addAll acc.1.sqRevdepsSquash dep tasks
  ({ acc.1 with sqRevdeps := sqRevdeps, sqRevdepsSquash := squash },
    if sqRevdeps dep = [] ∧ dep ∉ rqdata.runqSetsceneTids then
      acc.2.set dep task
    else acc.2)

/-- The loop body of `process_endpoints`. -/
def processPoint (acc : SceneCollapse Tid × Endpoints Tid)
    (endpoint : Tid × List Tid) : SceneCollapse Tid × Endpoints Tid :=
  let point := endpoint.1
  let task := endpoint.2
  let tasks := task ∪ acc.1.sqRevdepsSquash point
  if point ∈ rqdata.runqSetsceneTids then
    ({ acc.1 with
        sqRevdepsSquash :=
          Function.update acc.1.sqRevdepsSquash point tasks }, acc.2)
  else
    (rqdata.depends point).foldl (rqdata.processDep point task tasks)
      ({ acc.1 with
          sqCollatedDeps :=
            tasks.foldl (fun deps t => addTo deps t point)
              acc.1.sqCollatedDeps
          sqRevdepsSquash :=
            Function.update acc.1.sqRevdepsSquash point [] }, acc.2)

/-- `process_endpoints`: one wave, then the wave it has queued. -/
def processEndpoints : ℕ → SceneCollapse Tid → Endpoints Tid →
    Except SceneFatal (SceneCollapse Tid)
  | 0, _, _ => .error .outOfFuel
  | fuel + 1, collapse, endpoints =>
      let (next, newendpoints) :=
        endpoints.foldl rqdata.processPoint (collapse, [])
      if newendpoints = [] then .ok next
      else processEndpoints fuel next newendpoints

/-- The three dictionaries after `process_endpoints(endpoints)`. -/
def collapse (fuel : ℕ) : Except SceneFatal (SceneCollapse Tid) :=
  let (sqRevdeps, endpoints) := rqdata.sceneEndpoints
  rqdata.processEndpoints fuel
    { sqRevdeps := sqRevdeps
      sqRevdepsSquash := fun _ => []
      sqCollatedDeps := fun _ => [] } endpoints

/-- Target tasks that are not setscene tasks cannot be skipped. -/
def cantskip : List Tid :=
  rqdata.targetTids.filter fun tid =>
    tid ∉ rqdata.runqSetsceneTids ∧ tid ∈ rqdata.runtaskentries

/-- The body of the `while new` loop for one task: what it adds to
`unskippable` and to the tasks marked buildable. -/
def visitUnskippable (acc : List Tid × List Tid) (tid : Tid) :
    List Tid × List Tid :=
  if tid ∈ rqdata.runqSetsceneTids then acc
  else
    (rqdata.depends tid ∪ acc.1,
      if rqdata.depends tid = [] then [tid] ∪ acc.2 else acc.2)

/-- One pass of the `while new` loop over a copy of `unskippable`. -/
def unskippableRound (acc : List Tid × List Tid) : List Tid × List Tid :=
  (sorted acc.1).reverse.foldl rqdata.visitUnskippable acc

/-- The `while new` loop: `unskippable` and the tasks marked buildable. -/
def unskippableLoop : ℕ → List Tid × List Tid →
    Except SceneFatal (List Tid × List Tid)
  | 0, _ => .error .outOfFuel
  | fuel + 1, orig =>
      let next := rqdata.unskippableRound orig
      if next.1 ⊆ orig.1 then .ok next else unskippableLoop fuel next

/-- Points without reverse dependencies and `cantskip` start the closure. -/
def unskippableStart : List Tid :=
  rqdata.runtaskentries.filter (rqdata.revdeps · = []) ∪ rqdata.cantskip

/-- One `deptid` of one setscene task; `none` for a task that does not
exist. -/
def addHarddep (tid : Tid)
    (acc : (Tid → List Tid) × (Tid → List Tid)) (deptid : Option Tid) :
    Option ((Tid → List Tid) × (Tid → List Tid)) :=
  match deptid with
  | none => some acc
  | some deptid =>
      if deptid ∉ rqdata.runtaskentries then none
      else some (addTo acc.1 deptid tid, addTo acc.2 tid deptid)

/-- `sq_harddeps` and `sq_harddeps_rev`. -/
def harddeps : Option ((Tid → List Tid) × (Tid → List Tid)) :=
  rqdata.runqSetsceneTids.foldlM
    (fun acc tid => (rqdata.idepends tid).foldlM (rqdata.addHarddep tid) acc)
    (fun _ => [], fun _ => [])

/-- The keys left in `sq_revdeps_squash` after the sanity check. -/
def sceneKeys : List Tid :=
  rqdata.runtaskentries.filter (· ∈ rqdata.runqSetsceneTids)

/-- `sq_deps`, filled from `sq_revdeps`. -/
def invertSqRevdeps (sqRevdeps : Tid → List Tid) : Tid → List Tid :=
  rqdata.sceneKeys.foldl
    (fun deps tid =>
      (sqRevdeps tid).foldl (fun deps dep => addTo deps dep tid) deps)
    fun _ => []

/-- The sanity check: some non-setscene task still carries setscene tasks. -/
def insane (collapse : SceneCollapse Tid) : Bool :=
  rqdata.runtaskentries.any fun tid =>
    tid ∉ rqdata.runqSetsceneTids ∧ collapse.sqRevdepsSquash tid ≠ []

/-- The end of `build_scenequeue_data`, after its checks. -/
def assemble (collapse : SceneCollapse Tid)
    (unskippable setbuildable : List Tid)
    (harddeps : (Tid → List Tid) × (Tid → List Tid)) : SceneQueueBuild Tid where
  sqdata :=
    { sqDeps := rqdata.invertSqRevdeps collapse.sqRevdepsSquash
      sqRevdeps := collapse.sqRevdepsSquash
      sqHarddeps := harddeps.1
      sqHarddepsRev := harddeps.2
      unskippable := unskippable
      cantskip := rqdata.cantskip
      sqCoveredTasks := collapse.sqCollatedDeps }
  setbuildable := setbuildable
  tasksScenequeueDone := unskippable.filter (· ∉ rqdata.runqSetsceneTids)
  sqBuildable := rqdata.sceneKeys.filter (collapse.sqRevdepsSquash · = [])

/-- `build_scenequeue_data`, up to `sq_buildable`. -/
def buildScenequeueData (fuel : ℕ) :
    Except SceneFatal (SceneQueueBuild Tid) := do
  let collapse ← rqdata.collapse fuel
  let (unskippable, setbuildable) ←
    rqdata.unskippableLoop fuel (rqdata.unskippableStart, [])
  if rqdata.insane collapse then throw .wentBadlyWrong
  match rqdata.harddeps with
  | none => throw .nonExistentTask
  | some harddeps =>
      return rqdata.assemble collapse unskippable setbuildable harddeps

end RunQueueData

end Nvbmc.RunQueue
