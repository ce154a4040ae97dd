import Nvbmc.Prepare.Tids

/-!
# Task data

What `TaskData` and the run queue keep of the tasks and of what they depend on.
-/

namespace Nvbmc.Prepare

open Nvbmc.Library

/-- `TaskEntry`. -/
structure TaskEntry where
  tdepends : List Tid
  idepends : List (Text × Text)
  irdepends : List (Text × Text)

/-- The `TaskData` of one multiconfig. -/
structure TaskData where
  buildTargets : Dict Text (List Text)
  runTargets : Dict Text (List Text)
  seenfns : List Text
  taskentries : Dict Tid TaskEntry
  depids : Dict Text (List Text)
  rdepids : Dict Text (List Text)
  failedDeps : List Text
  failedRdeps : List Text
  failedFns : List Text
  mcdepends : List Text

/-- `RunTaskEntry`. -/
structure RunTaskEntry where
  depends : List Tid
  revdeps : List Tid

/-- What `prepare` ends with when it does not return. -/
inductive PrepareError where
  /-- `KeyError` on a multiconfig. -/
  | noMulticonfig (mc : Text)
  /-- `KeyError` on `runtaskentries`. -/
  | keyError (tid : Tid)
  | noTask (task target : Text) (tid : Tid)
  /-- "Could not find any tasks with the tasknames %s to run within the recipes
  of the taskgraphs of the targets %s". -/
  | noRunall (tasknames : List Text)
  /-- "Could not find any tasks with the tasknames %s to run within the
  taskgraphs of the targets %s". -/
  | noRunonly (tasknames : List Text)
  | noActive
  /-- A loop that has not come to its end. -/
  | endless

/-- One entry of `rqdata.targets`. -/
structure Target where
  mc : Text
  target : Text
  task : Text
  fn : Text

/-- The part of `RunQueueData` that `prepare` works on. -/
structure RunQueueData where
  taskData : Dict Text TaskData
  targets : List Target
  runtaskentries : Dict Tid RunTaskEntry
  targetTids : List Tid

end Nvbmc.Prepare
