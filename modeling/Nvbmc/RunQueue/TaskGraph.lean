import Mathlib.Data.List.Sort
import Nvbmc.Library.Reachability

/-!
# The prepared task graph

`RunQueueData.prepare` leaves a dictionary of tasks with their dependencies
and reverse dependencies.  `TaskGraph` is that dictionary together with what
`prepare` has checked: both directions describe the same edges, every edge
stays inside the dictionary and there is no cycle.  Python sets are lists; only
membership in them is used, so a list in any order models any iteration order.
-/

namespace Nvbmc.RunQueue

open Nvbmc.Library

/-- `rqdata.runtaskentries`. -/
structure TaskGraph (Tid : Type) where
  runtaskentries : List Tid
  depends : Tid → List Tid
  revdeps : Tid → List Tid
  depends_mem : ∀ {tid dep}, dep ∈ depends tid →
    tid ∈ runtaskentries ∧ dep ∈ runtaskentries
  mem_revdeps : ∀ {tid dep}, tid ∈ revdeps dep ↔ dep ∈ depends tid
  acyclic : Acyclic fun dep tid => dep ∈ depends tid

/-- The part of `RunQueueData` the scene queue is built from. -/
structure RunQueueData (Tid : Type) extends TaskGraph Tid where
  runqSetsceneTids : List Tid
  targetTids : List Tid
  /-- The `deptid` each `idepends` entry of `tid + "_setscene"` resolves to;
  `none` when its recipe is not built. -/
  idepends : Tid → List (Option Tid)
  setscene_mem : ∀ {tid}, tid ∈ runqSetsceneTids → tid ∈ runtaskentries

namespace TaskGraph

variable {Tid : Type} (graph : TaskGraph Tid)

/-- The graph `prepare` leaves when its dependencies are those of `depends`:
the reverse dependencies are filled in from them. -/
def ofDepends [DecidableEq Tid] (runtaskentries : List Tid)
    (depends : Tid → List Tid) (rank : Tid → ℕ)
    (closed : ∀ tid, ∀ dep ∈ depends tid,
      tid ∈ runtaskentries ∧ dep ∈ runtaskentries ∧ rank dep < rank tid) :
    TaskGraph Tid where
  runtaskentries := runtaskentries
  depends := depends
  revdeps := fun dep => runtaskentries.filter (dep ∈ depends ·)
  depends_mem := fun {tid dep} edge =>
    ⟨(closed tid dep edge).1, (closed tid dep edge).2.1⟩
  mem_revdeps := by
    intro tid dep
    simp only [List.mem_filter, decide_eq_true_eq, and_iff_right_iff_imp]
    exact fun edge => (closed tid dep edge).1
  acyclic := .of_lt rank fun dep tid edge => (closed tid dep edge).2.2

def DependsOn (tid dep : Tid) : Prop :=
  dep ∈ graph.depends tid

theorem wellFounded_revdeps :
    WellFounded fun tid dep => graph.DependsOn tid dep := by
  classical
  have supported : ∀ tid dep, dep ∈ graph.depends tid →
      tid ∈ graph.runtaskentries.toFinset :=
    fun _ _ step => List.mem_toFinset.mpr (graph.depends_mem step).1
  exact graph.acyclic.swap.wellFounded supported

open Classical in
/-- The number of tasks below a task. -/
noncomputable def depth (tid : Tid) : ℕ :=
  rankIn (fun dep tid => dep ∈ graph.depends tid)
    graph.runtaskentries.toFinset tid

theorem depth_lt {tid dep : Tid} (edge : dep ∈ graph.depends tid) :
    graph.depth dep < graph.depth tid := by
  classical
  exact graph.acyclic.rankIn_lt edge
    (List.mem_toFinset.mpr (graph.depends_mem edge).2)

theorem depth_le (tid : Tid) :
    graph.depth tid ≤ graph.runtaskentries.length := by
  classical
  exact (rankIn_le_card ..).trans (List.toFinset_card_le _)

end TaskGraph

/-- The equality test of task ids is that of their order. -/
scoped instance instLawfulBEqTid {Tid : Type} [LinearOrder Tid] :
    LawfulBEq Tid :=
  inferInstance

/-- `sorted(tids)`. -/
def sorted {Tid : Type} [LinearOrder Tid] (tids : List Tid) : List Tid :=
  tids.insertionSort (· ≤ ·)

@[simp] theorem mem_sorted {Tid : Type} [LinearOrder Tid] {tids : List Tid}
    {tid : Tid} : tid ∈ sorted tids ↔ tid ∈ tids :=
  List.mem_insertionSort _

end Nvbmc.RunQueue
