import Nvbmc.RunQueue.SceneCollapse

/-!
# The built scene queue

The passes of `build_scenequeue_data` terminate on every task graph, and what
they build is characterised by the graph alone: `sq_revdeps`,
`sq_covered_tasks` and `sq_deps` by sources, `unskippable` by a closure.
-/

namespace Nvbmc.RunQueue

open Nvbmc.Library

variable {Tid : Type} [LinearOrder Tid]

namespace RunQueueData

variable (rqdata : RunQueueData Tid)

/-- The edges the second pass visits, in its order. -/
def sceneEdges : List (Tid × Tid) :=
  rqdata.runqSetsceneTids.flatMap fun tid =>
    (rqdata.depends tid).map (Prod.mk tid)

omit [LinearOrder Tid] in
theorem mem_sceneEdges {tid dep : Tid} :
    (tid, dep) ∈ rqdata.sceneEdges ↔
      tid ∈ rqdata.runqSetsceneTids ∧ dep ∈ rqdata.depends tid := by
  simp [sceneEdges, and_comm]

theorem sceneEndpoints_eq :
    rqdata.sceneEndpoints =
      rqdata.sceneEdges.foldl
        (fun acc edge => addSceneEndpoint edge.1 acc edge.2)
        (rqdata.revdeps, rqdata.firstEndpoints) := by
  simp [sceneEndpoints, sceneEdges, List.foldl_flatMap, List.foldl_map]

/-- The second pass, over any list of edges. -/
structure EdgesAdded (edges : List (Tid × Tid))
    (before after : (Tid → List Tid) × Endpoints Tid) : Prop where
  sqRevdeps : ∀ {tid dep}, tid ∈ after.1 dep ↔
    tid ∈ before.1 dep ∧ (tid, dep) ∉ edges
  kept : ∀ {dep label}, before.2.get? dep = some label →
    ∃ wider, after.2.get? dep = some wider ∧ label ⊆ wider
  keys : ∀ {dep}, dep ∈ before.2.keys → dep ∈ after.2.keys
  added : ∀ {tid dep}, (tid, dep) ∈ edges →
    ∃ label, after.2.get? dep = some label ∧ tid ∈ label
  labels : ∀ {dep label tid}, (dep, label) ∈ after.2 → tid ∈ label →
    (∃ old, (dep, old) ∈ before.2 ∧ tid ∈ old) ∨ (tid, dep) ∈ edges

theorem foldl_addSceneEndpoint (edges : List (Tid × Tid))
    (before : (Tid → List Tid) × Endpoints Tid) :
    EdgesAdded edges before
      (edges.foldl
        (fun acc edge => addSceneEndpoint edge.1 acc edge.2) before) := by
  induction edges generalizing before with
  | nil =>
      exact ⟨by simp, fun found => ⟨_, found, List.Subset.refl _⟩, id,
        by simp, fun member inside => .inl ⟨_, member, inside⟩⟩
  | cons edge edges induction =>
      obtain ⟨head, target⟩ := edge
      have rest := induction (addSceneEndpoint head before target)
      refine ⟨?_, ?_, ?_, ?_, ?_⟩
      · intro tid dep
        rw [List.foldl_cons, rest.sqRevdeps]
        simp only [addSceneEndpoint, SceneCollapse.mem_removeFrom,
          List.mem_cons, Prod.mk.injEq]
        grind
      · intro dep label found
        by_cases same : dep = target
        · subst same
          have set : (addSceneEndpoint head before dep).2.get? dep =
              some ([head] ∪ label) := by
            simp [addSceneEndpoint, found]
          obtain ⟨wider, later, included⟩ := rest.kept set
          exact ⟨wider, later, fun tid member =>
            included (List.mem_union_right _ member)⟩
        · exact rest.kept (by
            rw [addSceneEndpoint, Dict.get?_set_of_ne _ _ same, found])
      · intro dep member
        exact rest.keys ((Dict.mem_keys_set ..).mpr (.inr member))
      · intro tid dep member
        rcases List.mem_cons.mp member with first | later
        · cases first
          have set : (addSceneEndpoint head before target).2.get? target =
              some ([head] ∪ (before.2.get? target).getD []) := by
            simp [addSceneEndpoint]
          obtain ⟨wider, found, included⟩ := rest.kept set
          exact ⟨wider, found, included (by simp)⟩
        · exact rest.added later
      · intro dep label tid member inside
        rcases rest.labels member inside with ⟨old, first, oldInside⟩ | later
        · rcases Dict.mem_of_mem_set first with before | ⟨same, equal⟩
          · exact .inl ⟨old, before, oldInside⟩
          · subst same equal
            rcases List.mem_union_iff.mp oldInside with new | stored
            · rw [List.mem_singleton] at new
              exact .inr (by simp [new])
            · cases found : before.2.get? dep with
              | none => simp [found] at stored
              | some label =>
                  exact .inl ⟨label, Dict.mem_of_get? found,
                    by simpa [found] using stored⟩
        · exact .inr (List.mem_cons_of_mem _ later)

/-- Before `process_endpoints` every contribution is still to be made. -/
theorem sceneEndpoints_propagating (collapse : SceneCollapse Tid)
    (revdeps : collapse.sqRevdeps = rqdata.sceneEndpoints.1)
    (squash : collapse.sqRevdepsSquash = fun _ => [])
    (collated : collapse.sqCollatedDeps = fun _ => []) :
    rqdata.Propagating rqdata.sceneEndpoints.2 (collapse, []) := by
  have added := foldl_addSceneEndpoint rqdata.sceneEdges
    (rqdata.revdeps, rqdata.firstEndpoints)
  rw [← rqdata.sceneEndpoints_eq] at added
  have mem_revdeps : ∀ {tid dep}, tid ∈ collapse.sqRevdeps dep ↔
      dep ∈ rqdata.depends tid ∧ tid ∉ rqdata.runqSetsceneTids := by
    intro tid dep
    rw [revdeps, added.sqRevdeps, rqdata.mem_revdeps, rqdata.mem_sceneEdges]
    grind
  refine ⟨?_, by simp [collated], by simp [squash], ?_, mem_revdeps.mp⟩
  · intro source dep scene edge
    obtain ⟨label, found, inside⟩ :=
      added.added (rqdata.mem_sceneEdges.mpr ⟨scene, edge⟩)
    exact .inr ⟨label, Dict.mem_of_get? found, inside⟩
  · intro point dep member
    obtain ⟨edge, normal⟩ := mem_revdeps.mp member
    by_cases drained : collapse.sqRevdeps point = []
    · left
      by_cases alone : rqdata.revdeps point = []
      · apply added.keys
        simp [Dict.keys, firstEndpoints, alone, normal,
          (rqdata.depends_mem edge).1]
      · -- All reverse dependencies are setscene tasks.
        obtain ⟨above, aboveEdge⟩ := List.exists_mem_of_ne_nil _ alone
        have aboveScene : above ∈ rqdata.runqSetsceneTids := by
          by_contra aboveNormal
          have kept := mem_revdeps.mpr
            ⟨rqdata.mem_revdeps.mp aboveEdge, aboveNormal⟩
          rw [drained] at kept
          exact List.not_mem_nil kept
        obtain ⟨label, found, _⟩ := added.added
          (rqdata.mem_sceneEdges.mpr
            ⟨aboveScene, rqdata.mem_revdeps.mp aboveEdge⟩)
        exact List.mem_map_of_mem (Dict.mem_of_get? found)
    · exact .inr (.inr drained)

theorem sceneEndpoints_sound (collapse : SceneCollapse Tid)
    (squash : collapse.sqRevdepsSquash = fun _ => [])
    (collated : collapse.sqCollatedDeps = fun _ => []) :
    rqdata.Sound (collapse, rqdata.sceneEndpoints.2) := by
  have added := foldl_addSceneEndpoint rqdata.sceneEdges
    (rqdata.revdeps, rqdata.firstEndpoints)
  rw [← rqdata.sceneEndpoints_eq] at added
  refine ⟨by simp [squash], by simp [collated], ?_⟩
  intro source point label member inside
  rcases added.labels member inside with ⟨old, first, oldInside⟩ | edge
  · simp only [firstEndpoints, List.mem_map, Prod.mk.injEq] at first
    obtain ⟨_, _, _, empty⟩ := first
    simp [← empty] at oldInside
  · obtain ⟨scene, step⟩ := rqdata.mem_sceneEdges.mp edge
    exact ⟨scene, .single step⟩

private theorem foldl_processPoint_below {wave : Endpoints Tid}
    {acc : SceneCollapse Tid × Endpoints Tid} {dep : Tid} {label : List Tid}
    (member : (dep, label) ∈ (wave.foldl rqdata.processPoint acc).2) :
    (dep, label) ∈ acc.2 ∨
      ∃ endpoint ∈ wave, dep ∈ rqdata.depends endpoint.1 := by
  induction wave generalizing acc with
  | nil => exact .inl member
  | cons endpoint wave induction =>
      obtain ⟨point, task⟩ := endpoint
      rcases induction member with queued | ⟨below, inside, edge⟩
      · by_cases scene : point ∈ rqdata.runqSetsceneTids
        · rw [rqdata.processPoint_scene scene] at queued
          exact .inl queued
        · rcases (rqdata.processPoint_normal _ _ scene).labels queued with
            old | ⟨edge, _⟩
          · exact .inl old
          · exact .inr ⟨(point, task), List.mem_cons_self, edge⟩
      · exact .inr ⟨below, List.mem_cons_of_mem _ inside, edge⟩

variable {fuel : ℕ}

private theorem processEndpoints_returns (start : SceneCollapse Tid)
    {endpoints : Endpoints Tid}
    (shallow : ∀ endpoint ∈ endpoints, rqdata.depth endpoint.1 < fuel)
    (positive : 0 < fuel) :
    ∃ final, rqdata.processEndpoints fuel start endpoints = .ok final := by
  induction fuel generalizing start endpoints with
  | zero => exact absurd positive (Nat.lt_irrefl 0)
  | succ fuel induction =>
      simp only [processEndpoints]
      split
      · exact ⟨_, rfl⟩
      · rename_i more
        obtain ⟨queued, inside⟩ := List.exists_mem_of_ne_nil _ more
        have below : ∀ endpoint ∈
            (endpoints.foldl rqdata.processPoint (start, [])).2,
            rqdata.depth endpoint.1 < fuel := by
          intro endpoint member
          rcases rqdata.foldl_processPoint_below member with none | found
          · exact absurd none List.not_mem_nil
          · obtain ⟨above, aboveMember, edge⟩ := found
            have aboveShallow := shallow above aboveMember
            have lower := rqdata.depth_lt edge
            omega
        exact induction _ below (Nat.zero_lt_of_lt (below queued inside))

/-- Enough fuel for both loops of `build_scenequeue_data`. -/
def enoughFuel : ℕ :=
  rqdata.runtaskentries.length + 1

theorem collapse_returns (enough : rqdata.enoughFuel ≤ fuel) :
    ∃ final, rqdata.collapse fuel = .ok final := by
  unfold enoughFuel at enough
  apply rqdata.processEndpoints_returns
  · intro endpoint _
    have bound := rqdata.depth_le endpoint.1
    omega
  · omega

/-- What the build depends on directly, up to and including the first setscene
task of every chain. -/
inductive Unskippable : Tid → Prop where
  | start {tid : Tid} : tid ∈ rqdata.unskippableStart → Unskippable tid
  | step {tid dep : Tid} : Unskippable tid →
      tid ∉ rqdata.runqSetsceneTids → dep ∈ rqdata.depends tid →
      Unskippable dep

private theorem foldl_visitUnskippable (todo : List Tid)
    (acc : List Tid × List Tid) (tid : Tid) :
    (tid ∈ (todo.foldl rqdata.visitUnskippable acc).1 ↔
      tid ∈ acc.1 ∨ ∃ above, above ∈ todo ∧
        above ∉ rqdata.runqSetsceneTids ∧ tid ∈ rqdata.depends above) ∧
    (tid ∈ (todo.foldl rqdata.visitUnskippable acc).2 ↔
      tid ∈ acc.2 ∨ (tid ∈ todo ∧ tid ∉ rqdata.runqSetsceneTids ∧
        rqdata.depends tid = [])) := by
  induction todo generalizing acc with
  | nil => simp
  | cons head todo induction =>
      obtain ⟨closure, buildable⟩ :=
        induction (rqdata.visitUnskippable acc head)
      rw [List.foldl_cons, closure, buildable]
      by_cases scene : head ∈ rqdata.runqSetsceneTids
      · rw [visitUnskippable, if_pos scene]
        constructor
        · refine or_congr_right (exists_congr fun above => ?_)
          by_cases same : above = head
          · simp [same, scene]
          · simp [same]
        · by_cases same : tid = head
          · simp [same, scene]
          · simp [same]
      · rw [visitUnskippable, if_neg scene]
        constructor
        · simp only [List.mem_union_iff, List.mem_cons, or_and_right,
            exists_or, exists_eq_left]
          grind
        · by_cases leaf : rqdata.depends head = [] <;>
            by_cases same : tid = head <;> simp [leaf, same, scene]

private theorem mem_unskippableRound (acc : List Tid × List Tid) (tid : Tid) :
    (tid ∈ (rqdata.unskippableRound acc).1 ↔
      tid ∈ acc.1 ∨ ∃ above, above ∈ acc.1 ∧
        above ∉ rqdata.runqSetsceneTids ∧ tid ∈ rqdata.depends above) ∧
    (tid ∈ (rqdata.unskippableRound acc).2 ↔
      tid ∈ acc.2 ∨ (tid ∈ acc.1 ∧ tid ∉ rqdata.runqSetsceneTids ∧
        rqdata.depends tid = [])) := by
  have round := rqdata.foldl_visitUnskippable (sorted acc.1).reverse acc tid
  simpa [unskippableRound] using round

private theorem unskippableLoop_spec {start : List Tid × List Tid}
    {final : List Tid × List Tid}
    (starts : ∀ {tid}, tid ∈ rqdata.unskippableStart → tid ∈ start.1)
    (sound : ∀ {tid}, tid ∈ start.1 → rqdata.Unskippable tid)
    (buildable : ∀ {tid}, tid ∈ start.2 → tid ∈ start.1 ∧
      tid ∉ rqdata.runqSetsceneTids ∧ rqdata.depends tid = [])
    (returned : rqdata.unskippableLoop fuel start = .ok final) :
    (∀ {tid}, tid ∈ final.1 ↔ rqdata.Unskippable tid) ∧
      (∀ {tid}, tid ∈ final.2 ↔ tid ∈ final.1 ∧
        tid ∉ rqdata.runqSetsceneTids ∧ rqdata.depends tid = []) := by
  induction fuel generalizing start with
  | zero => simp [unskippableLoop] at returned
  | succ fuel induction =>
      have round := rqdata.mem_unskippableRound start
      have grows : ∀ {tid}, tid ∈ start.1 →
          tid ∈ (rqdata.unskippableRound start).1 :=
        fun member => (round _).1.mpr (.inl member)
      have nextSound : ∀ {tid},
          tid ∈ (rqdata.unskippableRound start).1 →
            rqdata.Unskippable tid := by
        intro tid member
        rcases (round tid).1.mp member with old | ⟨above, inside, normal, edge⟩
        · exact sound old
        · exact (sound inside).step normal edge
      have nextBuildable : ∀ {tid},
          tid ∈ (rqdata.unskippableRound start).2 →
            tid ∈ (rqdata.unskippableRound start).1 ∧
              tid ∉ rqdata.runqSetsceneTids ∧ rqdata.depends tid = [] := by
        intro tid member
        rcases (round tid).2.mp member with old | ⟨inside, leaf⟩
        · exact ⟨grows (buildable old).1, (buildable old).2⟩
        · exact ⟨grows inside, leaf⟩
      simp only [unskippableLoop] at returned
      split at returned
      · rename_i stable
        cases returned
        constructor
        · intro tid
          refine ⟨nextSound, fun unskippable => ?_⟩
          induction unskippable with
          | start member => exact grows (starts member)
          | step _ normal edge inside =>
              exact (round _).1.mpr
                (.inr ⟨_, stable inside, normal, edge⟩)
        · intro tid
          refine ⟨nextBuildable, fun found => ?_⟩
          exact (round tid).2.mpr (.inr ⟨stable found.1, found.2⟩)
      · exact induction (fun member => grows (starts member)) nextSound
          nextBuildable returned

private theorem unskippable_mem {tid : Tid}
    (unskippable : rqdata.Unskippable tid) : tid ∈ rqdata.runtaskentries := by
  cases unskippable with
  | start member =>
      simp only [unskippableStart, cantskip, List.mem_union_iff,
        List.mem_filter, decide_eq_true_eq] at member
      rcases member with ⟨inside, _⟩ | ⟨_, _, inside⟩ <;> exact inside
  | step _ _ edge => exact (rqdata.depends_mem edge).2

/-- Every further round of the `while new` loop takes a task out of the
entries that are not unskippable yet. -/
private theorem unskippableLoop_returns {start : List Tid × List Tid}
    (sound : ∀ {tid}, tid ∈ start.1 → rqdata.Unskippable tid)
    (room : (rqdata.runtaskentries.filter (· ∉ start.1)).length < fuel) :
    ∃ final, rqdata.unskippableLoop fuel start = .ok final := by
  induction fuel generalizing start with
  | zero => exact absurd room (Nat.not_lt_zero _)
  | succ fuel induction =>
      have round := rqdata.mem_unskippableRound start
      simp only [unskippableLoop]
      split
      · exact ⟨_, rfl⟩
      · rename_i more
        have nextSound : ∀ {tid},
            tid ∈ (rqdata.unskippableRound start).1 →
              rqdata.Unskippable tid := by
          intro tid member
          rcases (round tid).1.mp member with
            old | ⟨above, inside, normal, edge⟩
          · exact sound old
          · exact (sound inside).step normal edge
        apply induction nextSound
        obtain ⟨tid, new, old⟩ : ∃ tid,
            tid ∈ (rqdata.unskippableRound start).1 ∧ tid ∉ start.1 := by
          by_contra none
          push Not at none
          exact more none
        have fewer : ((rqdata.runtaskentries.filter (· ∉ start.1)).filter
              (· ∉ (rqdata.unskippableRound start).1)).length <
            (rqdata.runtaskentries.filter (· ∉ start.1)).length := by
          apply List.length_filter_lt_length_iff_exists.mpr
          exact ⟨tid, by simp [old, rqdata.unskippable_mem (nextSound new)],
            by simp [new]⟩
        have same : rqdata.runtaskentries.filter
              (· ∉ (rqdata.unskippableRound start).1) =
            (rqdata.runtaskentries.filter (· ∉ start.1)).filter
              (· ∉ (rqdata.unskippableRound start).1) := by
          rw [List.filter_filter]
          apply List.filter_congr
          intro other _
          have grows := (round other).1.mpr ∘ .inl
          by_cases inside : other ∈ start.1
          · simp [inside, grows inside]
          · simp [inside]
        rw [same]
        omega

theorem unskippable_returns (enough : rqdata.enoughFuel ≤ fuel) :
    ∃ final, rqdata.unskippableLoop fuel (rqdata.unskippableStart, []) =
      .ok final := by
  unfold enoughFuel at enough
  apply rqdata.unskippableLoop_returns .start
  exact (List.length_filter_le ..).trans_lt enough

theorem mem_invertSqRevdeps {sqRevdeps : Tid → List Tid} {tid dep : Tid} :
    tid ∈ rqdata.invertSqRevdeps sqRevdeps dep ↔
      tid ∈ rqdata.sceneKeys ∧ dep ∈ sqRevdeps tid := by
  have inner : ∀ (deps : List Tid) (start : Tid → List Tid) (key : Tid),
      tid ∈ deps.foldl (fun acc dep => SceneCollapse.addTo acc dep key) start
          dep ↔
        tid ∈ start dep ∨ (tid = key ∧ dep ∈ deps) := by
    intro deps
    induction deps with
    | nil => simp
    | cons head deps induction =>
        intro start key
        simp only [List.foldl_cons, induction, SceneCollapse.mem_addTo,
          List.mem_cons]
        grind
  have outer : ∀ (todo : List Tid) (start : Tid → List Tid),
      tid ∈ todo.foldl (fun deps key =>
          (sqRevdeps key).foldl
            (fun deps dep => SceneCollapse.addTo deps dep key) deps)
          start dep ↔
        tid ∈ start dep ∨ (tid ∈ todo ∧ dep ∈ sqRevdeps tid) := by
    intro todo
    induction todo with
    | nil => simp
    | cons head todo induction =>
        intro start
        rw [List.foldl_cons, induction, inner, List.mem_cons]
        by_cases same : tid = head
        · subst same
          grind
        · simp [same]
  simpa [invertSqRevdeps] using outer rqdata.sceneKeys fun _ => []

theorem mem_sceneKeys {tid : Tid} :
    tid ∈ rqdata.sceneKeys ↔ tid ∈ rqdata.runqSetsceneTids := by
  simp only [sceneKeys, List.mem_filter, decide_eq_true_eq,
    and_iff_right_iff_imp]
  exact rqdata.setscene_mem

/-- `sq_harddeps` and `sq_harddeps_rev` describe the same pairs, and every
hard dependency is a task. -/
structure HarddepsExact (todo : List Tid)
    (acc : (Tid → List Tid) × (Tid → List Tid)) : Prop where
  harddeps : ∀ {tid dep}, tid ∈ acc.1 dep ↔
    tid ∈ todo ∧ some dep ∈ rqdata.idepends tid
  harddepsRev : ∀ {tid dep}, dep ∈ acc.2 tid ↔
    tid ∈ todo ∧ some dep ∈ rqdata.idepends tid

private theorem foldlM_addHarddep {tid : Tid} (deps : List (Option Tid))
    {acc final : (Tid → List Tid) × (Tid → List Tid)}
    (returned : deps.foldlM (rqdata.addHarddep tid) acc = some final) :
    (∀ {other dep}, other ∈ final.1 dep ↔
      other ∈ acc.1 dep ∨ (other = tid ∧ some dep ∈ deps)) ∧
    (∀ {other dep}, dep ∈ final.2 other ↔
      dep ∈ acc.2 other ∨ (other = tid ∧ some dep ∈ deps)) := by
  induction deps generalizing acc with
  | nil =>
      cases returned
      simp
  | cons deptid deps induction =>
      rw [List.foldlM_cons] at returned
      cases deptid with
      | none =>
          have rest := induction returned
          simpa using rest
      | some deptid =>
          by_cases inside : deptid ∈ rqdata.runtaskentries
          · simp only [addHarddep, inside, not_true_eq_false, if_false]
              at returned
            obtain ⟨first, second⟩ := induction returned
            constructor
            · intro other dep
              rw [first]
              simp only [SceneCollapse.mem_addTo, List.mem_cons,
                Option.some.injEq]
              grind
            · intro other dep
              rw [second]
              simp only [SceneCollapse.mem_addTo, List.mem_cons,
                Option.some.injEq]
              grind
          · simp only [addHarddep, inside, not_false_eq_true, if_true]
              at returned
            cases returned

theorem harddeps_exact {final : (Tid → List Tid) × (Tid → List Tid)}
    (returned : rqdata.harddeps = some final) :
    rqdata.HarddepsExact rqdata.runqSetsceneTids final := by
  have pass : ∀ (todo : List Tid)
      (acc final : (Tid → List Tid) × (Tid → List Tid)),
      todo.foldlM (fun acc tid =>
        (rqdata.idepends tid).foldlM (rqdata.addHarddep tid) acc) acc =
          some final →
      (∀ {tid dep}, tid ∈ final.1 dep ↔ tid ∈ acc.1 dep ∨
        (tid ∈ todo ∧ some dep ∈ rqdata.idepends tid)) ∧
      (∀ {tid dep}, dep ∈ final.2 tid ↔ dep ∈ acc.2 tid ∨
        (tid ∈ todo ∧ some dep ∈ rqdata.idepends tid)) := by
    intro todo
    induction todo with
    | nil =>
        intro acc final returned
        cases returned
        simp
    | cons head todo induction =>
        intro acc final returned
        rw [List.foldlM_cons] at returned
        cases visited :
            (rqdata.idepends head).foldlM (rqdata.addHarddep head) acc with
        | none => rw [visited] at returned; cases returned
        | some middle =>
            rw [visited] at returned
            obtain ⟨first, second⟩ := induction middle final returned
            obtain ⟨headFirst, headSecond⟩ := rqdata.foldlM_addHarddep _ visited
            constructor
            · intro tid dep
              rw [first, headFirst, List.mem_cons]
              grind
            · intro tid dep
              rw [second, headSecond, List.mem_cons]
              grind
  obtain ⟨first, second⟩ := pass _ _ _ returned
  refine ⟨?_, ?_⟩
  · intro tid dep
    simpa using @first tid dep
  · intro tid dep
    simpa using @second tid dep

theorem harddeps_returns
    (existing : ∀ {tid dep}, tid ∈ rqdata.runqSetsceneTids →
      some dep ∈ rqdata.idepends tid → dep ∈ rqdata.runtaskentries) :
    ∃ final, rqdata.harddeps = some final := by
  have inner : ∀ (tid : Tid) (deps : List (Option Tid))
      (acc : (Tid → List Tid) × (Tid → List Tid)),
      (∀ dep, some dep ∈ deps → dep ∈ rqdata.runtaskentries) →
      ∃ final, deps.foldlM (rqdata.addHarddep tid) acc = some final := by
    intro tid deps
    induction deps with
    | nil => exact fun acc _ => ⟨acc, rfl⟩
    | cons deptid deps induction =>
        intro acc inside
        have later : ∀ dep, some dep ∈ deps → dep ∈ rqdata.runtaskentries :=
          fun dep member => inside dep (List.mem_cons_of_mem _ member)
        rw [List.foldlM_cons]
        cases deptid with
        | none => exact induction acc later
        | some deptid =>
            have member := inside deptid List.mem_cons_self
            simp only [addHarddep, member, not_true_eq_false, if_false]
            exact induction _ later
  have outer : ∀ (todo : List Tid)
      (acc : (Tid → List Tid) × (Tid → List Tid)),
      (∀ tid ∈ todo, tid ∈ rqdata.runqSetsceneTids) →
      ∃ final, todo.foldlM (fun acc tid =>
        (rqdata.idepends tid).foldlM (rqdata.addHarddep tid) acc) acc =
          some final := by
    intro todo
    induction todo with
    | nil => exact fun acc _ => ⟨acc, rfl⟩
    | cons head todo induction =>
        intro acc scene
        obtain ⟨middle, visited⟩ := inner head (rqdata.idepends head) acc
          fun dep => existing (scene head List.mem_cons_self)
        rw [List.foldlM_cons, visited]
        exact induction middle fun tid member =>
          scene tid (List.mem_cons_of_mem _ member)
  exact outer _ _ fun _ => id

structure ExactSceneQueue (sqdata : SQData Tid) : Prop where
  sqRevdeps : ∀ {point}, point ∈ rqdata.runqSetsceneTids →
    ∀ source, source ∈ sqdata.sqRevdeps point ↔ rqdata.Source source point
  sqCoveredTasks : ∀ {source}, source ∈ rqdata.runqSetsceneTids →
    ∀ point, point ∈ sqdata.sqCoveredTasks source ↔
      point ∉ rqdata.runqSetsceneTids ∧ rqdata.Source source point
  sqDeps : ∀ {source point}, source ∈ rqdata.runqSetsceneTids →
    point ∈ rqdata.runqSetsceneTids →
      (source ∈ sqdata.sqDeps point ↔ point ∈ sqdata.sqRevdeps source)

/-- What `RunQueueExecute` takes over from the built scene queue. -/
structure BuiltFrom (build : SceneQueueBuild Tid) : Prop
    extends rqdata.ExactSceneQueue build.sqdata where
  harddeps : rqdata.HarddepsExact rqdata.runqSetsceneTids
    (build.sqdata.sqHarddeps, build.sqdata.sqHarddepsRev)
  unskippable : ∀ {tid}, tid ∈ build.sqdata.unskippable ↔
    rqdata.Unskippable tid
  cantskip : build.sqdata.cantskip = rqdata.cantskip
  setbuildable : ∀ {tid}, tid ∈ build.setbuildable ↔
    rqdata.Unskippable tid ∧ tid ∉ rqdata.runqSetsceneTids ∧
      rqdata.depends tid = []
  tasksScenequeueDone : ∀ {tid}, tid ∈ build.tasksScenequeueDone ↔
    rqdata.Unskippable tid ∧ tid ∉ rqdata.runqSetsceneTids
  sqBuildable : ∀ {tid}, tid ∈ build.sqBuildable ↔
    tid ∈ rqdata.runqSetsceneTids ∧ build.sqdata.sqRevdeps tid = []

theorem collapse_exact {final : SceneCollapse Tid}
    (returned : rqdata.collapse fuel = .ok final) :
    rqdata.Sound (final, []) ∧ rqdata.Propagating [] (final, []) :=
  ⟨(rqdata.sceneEndpoints_sound _ rfl rfl).processEndpoints returned,
    (rqdata.sceneEndpoints_propagating _ rfl rfl rfl).processEndpoints
      returned⟩

/-- The sanity check never finds a non-setscene task that still carries
setscene tasks. -/
private theorem sanity_check {final : SceneCollapse Tid}
    (returned : rqdata.collapse fuel = .ok final) :
    rqdata.insane final = false := by
  simp only [insane, List.any_eq_false, decide_eq_true_eq]
  rintro tid _ ⟨normal, squashed⟩
  exact squashed ((rqdata.collapse_exact returned).2.squash_normal normal)

theorem buildScenequeueData_eq (enough : rqdata.enoughFuel ≤ fuel) :
    (∃ build, rqdata.buildScenequeueData fuel = .ok build ∧
      rqdata.BuiltFrom build) ∨
    (rqdata.buildScenequeueData fuel = .error .nonExistentTask ∧
      ∃ tid dep, tid ∈ rqdata.runqSetsceneTids ∧
        some dep ∈ rqdata.idepends tid ∧ dep ∉ rqdata.runtaskentries) := by
  obtain ⟨collapse, collapsed⟩ := rqdata.collapse_returns enough
  obtain ⟨⟨unskippable, setbuildable⟩, closed⟩ :=
    rqdata.unskippable_returns enough
  obtain ⟨sound, propagating⟩ := rqdata.collapse_exact collapsed
  obtain ⟨unskippableIff, setbuildableIff⟩ :=
    rqdata.unskippableLoop_spec id .start (by simp) closed
  have sane := rqdata.sanity_check collapsed
  cases hard : rqdata.harddeps with
  | none =>
      right
      refine ⟨?_, ?_⟩
      · simp [buildScenequeueData, collapsed, closed, sane, hard, bind,
          Except.bind, throw, throwThe, MonadExceptOf.throw]
      · by_contra none
        push Not at none
        obtain ⟨final, returned⟩ :=
          rqdata.harddeps_returns fun scene => none _ _ scene
        rw [returned] at hard
        cases hard
  | some pairs =>
      left
      refine ⟨rqdata.assemble collapse unskippable setbuildable pairs, ?_, ?_⟩
      · simp [buildScenequeueData, collapsed, closed, sane, hard, bind,
          Except.bind, pure, Except.pure]
      · refine
          { sqRevdeps := ?_
            sqCoveredTasks := ?_
            sqDeps := ?_
            harddeps := rqdata.harddeps_exact hard
            unskippable := unskippableIff
            cantskip := rfl
            setbuildable := ?_
            tasksScenequeueDone := ?_
            sqBuildable := ?_ }
        · intro point scene source
          refine ⟨sound.squash, fun reached => ?_⟩
          exact (propagating.held_of_source reached).resolve_right
            fun collated => collated.1 scene
        · intro source _ point
          refine ⟨sound.collated, fun ⟨normal, reached⟩ => ?_⟩
          have held := propagating.held_of_source reached
          rw [Held, propagating.squash_normal normal] at held
          exact (held.resolve_left List.not_mem_nil).2
        · intro source point sourceScene _
          exact rqdata.mem_invertSqRevdeps.trans
            (and_iff_right (rqdata.mem_sceneKeys.mpr sourceScene))
        · intro tid
          rw [← unskippableIff]
          exact setbuildableIff
        · intro tid
          simp only [assemble, List.mem_filter, decide_eq_true_eq]
          rw [← unskippableIff]
        · intro tid
          simp only [assemble, List.mem_filter, decide_eq_true_eq,
            rqdata.mem_sceneKeys]

/-- On every task graph `build_scenequeue_data` ends without the fatal error
of its sanity check; it returns unless a hard dependency names a task that
does not exist, and what it returns is exact. -/
theorem buildScenequeueData_exact (spare : ℕ) :
    rqdata.buildScenequeueData (rqdata.enoughFuel + spare) ≠
        .error .wentBadlyWrong ∧
      rqdata.buildScenequeueData (rqdata.enoughFuel + spare) ≠
        .error .outOfFuel ∧
      ((∀ {tid dep}, tid ∈ rqdata.runqSetsceneTids →
          some dep ∈ rqdata.idepends tid → dep ∈ rqdata.runtaskentries) →
        ∃ build, rqdata.buildScenequeueData (rqdata.enoughFuel + spare) =
          .ok build) ∧
      ∀ build, rqdata.buildScenequeueData (rqdata.enoughFuel + spare) =
        .ok build → rqdata.ExactSceneQueue build.sqdata := by
  rcases rqdata.buildScenequeueData_eq (Nat.le_add_right _ spare) with
    ⟨build, returned, built⟩ | ⟨failed, tid, dep, scene, named, missing⟩
  · rw [returned]
    refine ⟨nofun, nofun, fun _ => ⟨build, rfl⟩, ?_⟩
    rintro _ ⟨⟩
    exact built.toExactSceneQueue
  · rw [failed]
    refine ⟨nofun, nofun, fun existing => ?_, nofun⟩
    exact absurd (existing scene named) missing

end RunQueueData

end Nvbmc.RunQueue
