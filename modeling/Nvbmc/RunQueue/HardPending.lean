import Nvbmc.RunQueue.SkippedDependency

/-!
# Telling hard dependents

A decision about a setscene task is passed on to the tasks that depend hard on
it: a failure fails them, unless they are decided or have a stamp, and those in
`sq_harddep_deferred` are taken out once nothing is left to wait for.  While
`scenequeue_updatecounters` recurses, the tasks on its stack have not been
passed on yet; `HardPending` names them.
-/

namespace Nvbmc.RunQueue

open Nvbmc.Library

variable {Tid : Type} [LinearOrder Tid]

namespace Prepared

variable (rq : Prepared Tid)

/-- `check_stamp_task` says at some time that the task or its setscene variant
has a current stamp. -/
def HadStamp (stampfileHash : Tid → Str) (tid : Tid) : Prop :=
  ∃ time setscene recurse cache,
    (rq.checkStampTask (rq.world.mtime time) stampfileHash rq.stampFuel tid
      setscene recurse cache).1 = true

/-- A failed hard dependency leaves the task alone. -/
def Spared (s : RunQueueExecute Tid) (tid : Tid) : Prop :=
  rq.noexec tid = true ∨ rq.HadStamp s.stampfileHash tid

theorem spared_of_found {s : RunQueueExecute Tid} {tid : Tid}
    (found : rq.stampFound s tid = true) : rq.Spared s tid := by
  unfold stampFound Setup.checkSetsceneStamps at found
  dsimp only at found
  split_ifs at found with noexec setscene
  · exact .inl noexec
  · exact .inr ⟨_, _, _, _, setscene⟩
  · exact .inr ⟨_, _, _, _, (Bool.false_or _).symm.trans found⟩

/-- The decisions about `deciding` were not told to the deferred tasks and the
failures of `failing` were not passed on; all others were. -/
structure HardPending (deciding failing : List Tid)
    (s : RunQueueExecute Tid) : Prop where
  deferred : ∀ {tid}, tid ∈ s.sqHarddepDeferred →
    ∃ hard ∈ rq.sqdata.sqHarddepsRev tid, hard ∈ deciding ∨ ¬ s.Decided hard
  failed : ∀ {tid hard}, tid ∈ rq.runqSetsceneTids → ¬ s.Decided tid →
    hard ∈ rq.sqdata.sqHarddepsRev tid → hard ∈ s.scenequeueNotcovered →
    hard ∈ failing ∨ rq.Spared s tid

namespace HardPending

variable {rq} {deciding failing : List Tid} {s s' : RunQueueExecute Tid}
  {task dep : Tid} (pending : rq.HardPending deciding failing s)
include pending

theorem congr (deferred : s'.sqHarddepDeferred ⊆ s.sqHarddepDeferred)
    (covered : s'.scenequeueCovered = s.scenequeueCovered)
    (notcovered : s'.scenequeueNotcovered = s.scenequeueNotcovered)
    (stampfileHash : s'.stampfileHash = s.stampfileHash) :
    rq.HardPending deciding failing s' := by
  have same : ∀ {tid}, s'.Decided tid ↔ s.Decided tid := by
    intro tid
    simp only [RunQueueExecute.Decided, covered, notcovered]
  constructor
  · intro tid waiting
    obtain ⟨hard, edge, unmet⟩ := pending.deferred (deferred waiting)
    exact ⟨hard, edge, unmet.imp_right fun undecided decided =>
      undecided (same.mp decided)⟩
  · intro tid hard scene undecided edge failed
    rw [notcovered] at failed
    have told := pending.failed scene
      (fun decided => undecided (same.mpr decided)) edge failed
    simpa only [Spared, stampfileHash] using told

theorem mark {later : List Tid}
    (deferred : s'.sqHarddepDeferred = s.sqHarddepDeferred)
    (decided : ∀ {tid}, s'.Decided tid ↔ tid = task ∨ s.Decided tid)
    (grown : failing ⊆ later)
    (notcovered : ∀ {tid}, tid ∈ s'.scenequeueNotcovered →
      tid ∈ later ∨ tid ∈ s.scenequeueNotcovered)
    (stampfileHash : s'.stampfileHash = s.stampfileHash) :
    rq.HardPending (task :: deciding) later s' := by
  constructor
  · intro tid waiting
    rw [deferred] at waiting
    obtain ⟨hard, edge, unmet⟩ := pending.deferred waiting
    refine ⟨hard, edge, ?_⟩
    rcases unmet with told | undecided
    · exact .inl (List.mem_cons_of_mem _ told)
    · by_cases same : hard = task
      · exact .inl (List.mem_cons.mpr (.inl same))
      · exact .inr fun now => (decided.mp now).elim same undecided
  · intro tid hard scene undecided edge failed
    rcases notcovered failed with new | old
    · exact .inl new
    · have told := pending.failed scene
        (fun before => undecided (decided.mpr (.inr before))) edge old
      rw [Spared, stampfileHash]
      exact told.imp_left fun waiting => grown waiting

theorem markFailoutright :
    rq.HardPending (task :: deciding) (task :: failing)
      (markFailoutright task s) := by
  refine pending.mark rfl ?_ (List.subset_cons_self _ _) ?_ rfl
  · intro tid
    simp only [RunQueueExecute.Decided, Prepared.markFailoutright,
      List.mem_insert_iff]
    tauto
  · intro tid failed
    rcases List.mem_insert_iff.mp failed with rfl | old
    · exact .inl List.mem_cons_self
    · exact .inr old

omit pending

/-- The end of `scenequeue_updatecounters` looks at every deferred task that
may have waited for the decided one. -/
private theorem countDecision
    (pending : rq.HardPending (task :: deciding) failing s) :
    rq.HardPending deciding failing (rq.countDecision task s) := by
  constructor
  · intro tid waiting
    simp only [Prepared.countDecision] at waiting
    split_ifs at waiting with independent
    · obtain ⟨hard, edge, unmet⟩ := pending.deferred waiting
      refine ⟨hard, edge, ?_⟩
      rcases unmet with told | undecided
      · rcases List.mem_cons.mp told with same | told
        · subst same
          have scene := (rq.builtFrom.harddeps.harddepsRev.mp edge).1
          have dependent := rq.mem_sqHarddeps.mpr ⟨scene, edge⟩
          rw [independent] at dependent
          exact absurd dependent List.not_mem_nil
        · exact .inl told
      · exact .inr undecided
    · simp only [List.mem_filter, decide_eq_true_eq] at waiting
      obtain ⟨hard, edge, undecided⟩ : ∃ hard ∈ rq.sqdata.sqHarddepsRev tid,
          hard ∉ s.scenequeueCovered ++ s.scenequeueNotcovered := by
        simpa [List.subset_def] using waiting.2
      exact ⟨hard, edge, .inr fun decided =>
        undecided (List.mem_append.mpr decided)⟩
  · exact pending.failed

/-- The hard dependent is decided or left alone. -/
def Told (rq : Prepared Tid) (s : RunQueueExecute Tid) (dep : Tid) : Prop :=
  s.Decided dep ∨ rq.Spared s dep

theorem Told.passed (told : Told rq s dep) (passed : rq.Passed task s s') :
    Told rq s' dep := by
  refine told.imp passed.decided fun spared => ?_
  rw [Spared, passed.stampfileHash]
  exact spared

variable {failoutright : Tid → RunQueueExecute Tid → RunQueueExecute Tid}

private theorem failHarddep {fuel : ℕ}
    (recursion : ∀ {dep deciding failing marked},
      (rq.undecided marked).length < fuel →
      rq.HardPending (dep :: deciding) (dep :: failing) marked →
      rq.HardPending deciding failing
        (rq.scenequeueUpdatecounters fuel dep true marked))
    (hard : dep ∈ rq.sqdata.sqHarddeps task)
    (enough : (rq.undecided s).length ≤ fuel)
    (pending : rq.HardPending (task :: deciding) (task :: failing) s)
    (calls : failoutright = fun dep s =>
      rq.scenequeueUpdatecounters fuel dep true
        (Prepared.markFailoutright dep s)) :
    rq.HardPending (task :: deciding) (task :: failing)
        (rq.failHarddep failoutright s dep) ∧
      Told rq (rq.failHarddep failoutright s dep) dep := by
  rcases rq.failHarddep_cases failoutright s dep with ⟨decided, same⟩ |
    ⟨stampcache, consults, ⟨found, same⟩ | ⟨undecided, same⟩⟩
  · rw [same]
    exact ⟨pending, .inl decided⟩
  · have spared := rq.spared_of_found found
    rw [same]
    exact ⟨pending.congr (fun _ => id) rfl rfl rfl, .inr spared⟩
  · have less := (rq.undecided_markFailoutright (s := { s with
      stampcache := stampcache, consults := consults })
      (rq.mem_sqHarddeps.mp hard).1 undecided).trans_le enough
    have checked : rq.HardPending (task :: deciding) (task :: failing)
        { s with stampcache := stampcache, consults := consults } :=
      pending.congr (fun _ => id) rfl rfl rfl
    obtain ⟨passed, -⟩ := rq.scenequeueUpdatecounters_passed dep true less
    rw [same, calls]
    exact ⟨recursion less checked.markFailoutright,
      .inl (.inr (passed.scenequeueNotcovered List.mem_insert_self))⟩

private theorem failHarddeps {fuel : ℕ}
    (recursion : ∀ {dep deciding failing marked},
      (rq.undecided marked).length < fuel →
      rq.HardPending (dep :: deciding) (dep :: failing) marked →
      rq.HardPending deciding failing
        (rq.scenequeueUpdatecounters fuel dep true marked))
    (calls : failoutright = fun dep s =>
      rq.scenequeueUpdatecounters fuel dep true
        (Prepared.markFailoutright dep s))
    (deps : List Tid) (hard : deps ⊆ rq.sqdata.sqHarddeps task)
    (enough : (rq.undecided s).length ≤ fuel)
    (pending : rq.HardPending (task :: deciding) (task :: failing) s) :
    rq.HardPending (task :: deciding) (task :: failing)
        (deps.foldl (rq.failHarddep failoutright) s) ∧
      rq.Passed task s (deps.foldl (rq.failHarddep failoutright) s) ∧
      ∀ dep ∈ deps, Told rq (deps.foldl (rq.failHarddep failoutright) s) dep
      := by
  induction deps generalizing s with
  | nil => exact ⟨pending, .refl task s, nofun⟩
  | cons dep rest induction =>
      have member := hard List.mem_cons_self
      obtain ⟨next, told⟩ := failHarddep recursion member enough pending calls
      have passed : rq.Passed task s (rq.failHarddep failoutright s dep) := by
        refine rq.failHarddep_passed member fun checked less => ?_
        obtain ⟨behind, done, -⟩ := rq.scenequeueUpdatecounters_passed dep
          true (less.trans_le enough)
        exact calls ▸ ⟨behind, done⟩
      obtain ⟨pending, later, toldRest⟩ := induction
        (fun _ inside => hard (List.mem_cons_of_mem _ inside))
        (passed.undecided_le.trans enough) next
      refine ⟨pending, passed.trans later, ?_⟩
      intro other inside
      rcases List.mem_cons.mp inside with rfl | inside
      · exact told.passed later
      · exact toldRest other inside

/-- `scenequeue_updatecounters` tells everyone about its task. -/
theorem scenequeueUpdatecounters {fuel : ℕ} {fail : Bool}
    (enough : (rq.undecided s).length < fuel)
    (pending : rq.HardPending (task :: deciding)
      (if fail then task :: failing else failing) s) :
    rq.HardPending deciding failing
      (rq.scenequeueUpdatecounters fuel task fail s) := by
  induction fuel generalizing task fail deciding failing s with
  | zero => exact absurd enough (Nat.not_lt_zero _)
  | succ fuel induction =>
      rw [Prepared.scenequeueUpdatecounters]
      apply countDecision
      cases fail with
      | false => exact pending
      | true =>
          obtain ⟨pending, -, told⟩ := failHarddeps
            (fun less pending => induction less (by exact pending)) rfl
            (sorted (rq.sqdata.sqHarddeps task))
            (fun _ member => mem_sorted.mp member)
            (Nat.le_of_lt_succ enough) pending
          refine ⟨pending.deferred, ?_⟩
          intro tid hard scene undecided edge failed
          rcases pending.failed scene undecided edge failed with
            waiting | spared
          · rcases List.mem_cons.mp waiting with rfl | waiting
            · have dependent := rq.mem_sqHarddeps.mpr ⟨scene, edge⟩
              exact .inr ((told tid (mem_sorted.mpr dependent)).resolve_left
                undecided)
            · exact .inl waiting
          · exact .inr spared

/-- `decisionFuel` is enough in every state. -/
theorem updatecounters {fail : Bool}
    (pending : rq.HardPending (task :: deciding)
      (if fail then task :: failing else failing) s) :
    rq.HardPending deciding failing
      (rq.scenequeueUpdatecounters rq.decisionFuel task fail s) :=
  pending.scenequeueUpdatecounters
    (Nat.lt_succ_of_le (List.length_filter_le _ _))

end HardPending

end Prepared

end Nvbmc.RunQueue
