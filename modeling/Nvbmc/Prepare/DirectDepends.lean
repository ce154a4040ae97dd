import Nvbmc.Prepare.AddTasks

/-!
# Direct dependencies

Step A of `prepare`: the dependencies of each task are resolved into task ids,
but for the second part of the recursive ones.
-/

namespace Nvbmc.Prepare

open Nvbmc.Library

inductive ResolveError where
  /-- `KeyError` on a multiconfig, a recipe or a task. -/
  | keyError (name : Text)
  /-- `IndexError`. -/
  | indexError
  /-- "Multiconfig '%s' is referenced in multiconfig dependency '%s' but not
  enabled in BBMULTICONFIG?". -/
  | notEnabled (mcdep dep : Text)
  | noMcTask (newdep : Tid)
  /-- "Task %s in %s depends upon non-existent task %s in %s". -/
  | noTask (taskname fn idependtask depdata : Text)
  /-- "Task %s in %s rdepends upon non-existent task %s in %s". -/
  | noRuntimeTask (taskname fn idependtask depdata : Text)

structure Multiconfigs where
  dataCaches : Dict Text DataCache
  taskData : Dict Text TaskData

/-- What step A fills in.  `direct` has the dependencies as they stand before
the recursive ones. -/
structure Resolution where
  taskData : Dict Text TaskData
  direct : Dict Tid (List Tid)
  runtaskentries : Dict Tid RunTaskEntry
  recursivetasks : Dict Tid (List Text)
  recursiveitasks : Dict Tid (List Tid)
  recursivetasksselfref : List Tid

/-- `newdep` is added to the `tdepends` of a task. -/
def appendTdepends (taskData : Dict Text TaskData) (mc : Text)
    (tid newdep : Tid) : Except ResolveError (Dict Text TaskData) :=
  match taskData.get? mc with
  | none => .error (.keyError mc)
  | some data =>
      match data.taskentries.get? tid with
      | none => .error (.keyError tid.text)
      | some entry =>
          let entry := { entry with tdepends := entry.tdepends ++ [newdep] }
          .ok (taskData.set mc { data with
            taskentries := data.taskentries.set tid entry })

/-- The task an entry of `[mcdepends]` names, when `frommc` is this multiconfig.
-/
def resolveMcdepends (taskData : Dict Text TaskData) (mc dep : Text) :
    Except ResolveError (Option Tid) :=
  match dep.splitOn ':' with
  | _ :: frommc :: mcdep :: pn :: deptask :: _ =>
      match taskData.get? mcdep with
      | none => .error (.notEnabled mcdep dep)
      | some data =>
          if mc = frommc then
            match data.buildTargets.get? pn with
            | none => .error (.keyError pn)
            | some [] => .error .indexError
            | some (fn :: _) =>
                let newdep := Tid.of fn deptask
                if data.taskentries.contains newdep then .ok (some newdep)
                else .error (.noMcTask newdep)
          else .ok none
  | _ => .error .indexError

/-- `add_mc_dependencies`. -/
def addMcDependencies (taskData : Dict Text TaskData) (mc : Text) (tid : Tid) :
    Except ResolveError (Dict Text TaskData) :=
  match taskData.get? mc with
  | none => .error (.keyError mc)
  | some data => data.mcdepends.foldlM (fun taskData dep => do
      match ← resolveMcdepends taskData mc dep with
      | none => return taskData
      | some newdep => appendTdepends taskData mc tid newdep) taskData

/-- The dependencies in other multiconfigs, which become `tdepends`. -/
def resolveMulticonfig (taskData : Dict Text TaskData) (taskDeps : TaskDeps)
    (parts : TidParts) (tid : Tid) : Except ResolveError (Dict Text TaskData) :=
  if taskDeps.mcdepends.contains parts.taskname then
    addMcDependencies taskData parts.mc tid
  else .ok taskData

def firstProvider (targets : Dict Text (List Text)) (depname : Text) :
    Option Text :=
  ((targets.get? depname).getD []).head?

/-- Adds the tasks of the names in the first provider of each dependency. -/
def addDependencies (targets : Dict Text (List Text))
    (taskentries : Dict Tid TaskEntry)
    (depids tasknames : List Text) (depends : List Tid) : List Tid :=
  depids.foldl (fun depends depname =>
    match firstProvider targets depname with
    | none => depends
    | some depdata => tasknames.foldl (fun depends taskname =>
        let t := Tid.of depdata taskname
        if taskentries.contains t then insert t depends
        else depends) depends) depends

/-- `add_build_dependencies`. -/
def addBuildDependencies (data : TaskData) (depids tasknames : List Text)
    (depends : List Tid) : List Tid :=
  addDependencies data.buildTargets data.taskentries depids tasknames depends

/-- `add_runtime_dependencies`. -/
def addRuntimeDependencies (data : TaskData) (depids tasknames : List Text)
    (depends : List Tid) : List Tid :=
  addDependencies data.runTargets data.taskentries depids tasknames depends

/-- The loops that resolve `idepends` and `irdepends`: `provider` is the first
provider, if there is one that counts. -/
def resolveNamed (provider : Text → Option Text)
    (taskentries : Dict Tid TaskEntry)
    (error : Text → Text → ResolveError) (depends : List Tid)
    (idepends : List (Text × Text)) :
    Except ResolveError (List Tid) :=
  idepends.foldlM (fun depends idepend =>
    match provider idepend.1 with
    | none => .ok depends
    | some depdata =>
        let t := Tid.of depdata idepend.2
        if taskentries.contains t then .ok (insert t depends)
        else .error (error idepend.2 depdata)) depends

def buildProvider (data : TaskData) (depname : Text) : Option Text :=
  if depname ∈ data.failedDeps then none
  else firstProvider data.buildTargets depname

/-- `d[key]`. -/
def lookup {α : Type} (d : Dict Text α) (key : Text) : Except ResolveError α :=
  match d.get? key with
  | none => .error (.keyError key)
  | some value => .ok value

/-- The task names of a flag, if the task has it, in the dependencies of the
recipe. -/
def resolveFlag (add : List Text → List Text → List Tid → List Tid)
    (ids : Dict Text (List Text))
    (taskfn : Text) (flag : Option Text) (depends : List Tid) :
    Except ResolveError (List Tid) :=
  match flag with
  | none => .ok depends
  | some tasknames =>
      (lookup ids taskfn).map fun depids => add depids (words tasknames) depends

/-- The dependencies of a task before the recursive ones. -/
def directDepends (data : TaskData) (taskDeps : TaskDeps) (parts : TidParts)
    (entry : TaskEntry) : Except ResolveError (List Tid) := do
  let depends := entry.tdepends.map fun t =>
    buildTid (splitTidMcfn t).mc (splitTidMcfn t).fn (splitTidMcfn t).taskname
  let depends ← resolveFlag (addBuildDependencies data) data.depids parts.taskfn
    (taskDeps.deptask.get? parts.taskname) depends
  let depends ← resolveFlag (addRuntimeDependencies data) data.rdepids
    parts.taskfn (taskDeps.rdeptask.get? parts.taskname) depends
  let depends ← resolveNamed (buildProvider data) data.taskentries
    (.noTask parts.taskname parts.fn) depends entry.idepends
  resolveNamed (firstProvider data.runTargets) data.taskentries
    (.noRuntimeTask parts.taskname parts.fn) depends entry.irdepends

/-- The first part of the recursive dependencies, with the entry that is left.
-/
def resolveRecursive (data : TaskData) (taskDeps : TaskDeps) (parts : TidParts)
    (tid : Tid)
    (depends : List Tid) (state : Resolution) :
    Except ResolveError (List Tid × Resolution) :=
  match taskDeps.recrdeptask.get? parts.taskname with
  | none => .ok (depends, state)
  | some value => do
      let tasknames := words value
      let depids ← lookup data.depids parts.taskfn
      let depends := addBuildDependencies data depids tasknames depends
      let rdepids ← lookup data.rdepids parts.taskfn
      let depends := addRuntimeDependencies data rdepids tasknames depends
      let selfref := if parts.taskname ∈ tasknames then
        insert tid state.recursivetasksselfref else state.recursivetasksselfref
      let itasks := match taskDeps.recideptask.get? parts.taskname with
        | none => state.recursiveitasks
        | some value => state.recursiveitasks.set tid
            ((words value).map (buildTid parts.mc parts.fn))
      return (depends, { state with
        recursivetasks := state.recursivetasks.set tid tasknames
        recursiveitasks := itasks
        recursivetasksselfref := selfref })

def resolveTask (dataCaches : Dict Text DataCache) (state : Resolution)
    (tid : Tid) : Except ResolveError Resolution := do
  let parts := splitTidMcfn tid
  let dataCache ← lookup dataCaches parts.mc
  let taskDeps ← lookup dataCache.taskDeps parts.taskfn
  let data ← lookup state.taskData parts.mc
  if parts.fn ∈ data.failedFns then
    return { state with
      runtaskentries := state.runtaskentries.set tid ⟨[], []⟩ }
  else do
    let taskData ← resolveMulticonfig state.taskData taskDeps parts tid
    let data ← lookup taskData parts.mc
    match data.taskentries.get? tid with
    | none => .error (.keyError tid.text)
    | some entry => do
        let direct ← directDepends data taskDeps parts entry
        let (depends, state) ← resolveRecursive data taskDeps parts tid direct
          state
        return { state with
          taskData := taskData
          direct := state.direct.set tid direct
          -- without the task itself
          runtaskentries :=
            state.runtaskentries.set tid ⟨depends.filter (· ≠ tid), []⟩ }

/-- Step A. -/
def resolveDirect (multiconfigs : Multiconfigs) :
    Except ResolveError Resolution :=
  (multiconfigs.taskData.flatMap fun entry => entry.2.taskentries.keys).foldlM
    (resolveTask multiconfigs.dataCaches)
    { taskData := multiconfigs.taskData
      direct := []
      runtaskentries := []
      recursivetasks := []
      recursiveitasks := []
      recursivetasksselfref := [] }

end Nvbmc.Prepare
