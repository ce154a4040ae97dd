import Nvbmc.RunQueue.ProcessEndpoints

/-!
# The scene queue collapse is exact

A setscene task is a source of every point it reaches through non-setscene
tasks.  Soundness says that nothing but sources is ever recorded.
Completeness follows from an invariant on what is still to be propagated: a
source that has reached a point is either recorded there or waits in the
squashed set of a point that will be processed (again).
-/

namespace Nvbmc.RunQueue

open Nvbmc.Library

variable {Tid : Type} [LinearOrder Tid]

namespace RunQueueData

variable (rqdata : RunQueueData Tid)

/-- `source` is a setscene task from which `point` is reached by a non-empty
dependency path whose inner tasks are all non-setscene. -/
def Source (source point : Tid) : Prop :=
  source ∈ rqdata.runqSetsceneTids ∧
    ReachVia rqdata.DependsOn (· ∉ rqdata.runqSetsceneTids) source point

variable {rqdata}

omit [LinearOrder Tid] in
theorem Source.step {source point dep : Tid}
    (reached : rqdata.Source source point)
    (normal : point ∉ rqdata.runqSetsceneTids)
    (edge : dep ∈ rqdata.depends point) : rqdata.Source source dep :=
  ⟨reached.1, reached.2.tail normal edge⟩

variable (rqdata)

/-- Only sources are recorded, and only for non-setscene points are they
collated. -/
structure Sound (acc : SceneCollapse Tid × Endpoints Tid) : Prop where
  squash : ∀ {source point}, source ∈ acc.1.sqRevdepsSquash point →
    rqdata.Source source point
  collated : ∀ {source point}, point ∈ acc.1.sqCollatedDeps source →
    point ∉ rqdata.runqSetsceneTids ∧ rqdata.Source source point
  label : ∀ {source point label}, (point, label) ∈ acc.2 → source ∈ label →
    rqdata.Source source point

variable {rqdata} {acc : SceneCollapse Tid × Endpoints Tid} {point : Tid}
  {task : List Tid}

theorem Sound.processPoint (sound : rqdata.Sound acc)
    (label : ∀ source, source ∈ task → rqdata.Source source point) :
    rqdata.Sound (rqdata.processPoint acc (point, task)) := by
  by_cases scene : point ∈ rqdata.runqSetsceneTids
  · rw [rqdata.processPoint_scene scene]
    refine ⟨?_, sound.collated, sound.label⟩
    intro source other member
    rcases SceneCollapse.mem_addAll.mp member with old | ⟨same, new⟩
    · exact sound.squash old
    · exact same ▸ label source new
  · have processed := rqdata.processPoint_normal acc task scene
    have carried : ∀ source,
        source ∈ task ∨ source ∈ acc.1.sqRevdepsSquash point →
          rqdata.Source source point := by
      rintro source (queued | squashed)
      · exact label source queued
      · exact sound.squash squashed
    refine ⟨?_, ?_, ?_⟩
    · intro source other member
      rcases processed.squash.mp member with ⟨_, old⟩ | ⟨edge, new⟩
      · exact sound.squash old
      · exact (carried source new).step scene edge
    · intro source other member
      rcases processed.collated.mp member with old | ⟨same, new⟩
      · exact sound.collated old
      · exact same ▸ ⟨scene, carried source new⟩
    · intro source other queuedLabel member inside
      rcases processed.labels member with old | ⟨edge, same⟩
      · exact sound.label old inside
      · exact (label source (same ▸ inside)).step scene edge

theorem Sound.foldl (sound : rqdata.Sound acc) (wave : Endpoints Tid)
    (labels : ∀ {source point label}, (point, label) ∈ wave →
      source ∈ label → rqdata.Source source point) :
    rqdata.Sound (wave.foldl rqdata.processPoint acc) := by
  induction wave generalizing acc with
  | nil => exact sound
  | cons endpoint wave induction =>
      obtain ⟨point, task⟩ := endpoint
      exact induction
        (sound.processPoint fun _ => labels List.mem_cons_self)
        (fun member => labels (List.mem_cons_of_mem _ member))

variable {start final : SceneCollapse Tid}

theorem Sound.processEndpoints {fuel : ℕ}
    {endpoints : Endpoints Tid} (sound : rqdata.Sound (start, endpoints))
    (returned : rqdata.processEndpoints fuel start endpoints = .ok final) :
    rqdata.Sound (final, []) := by
  induction fuel generalizing start endpoints with
  | zero => simp [RunQueueData.processEndpoints] at returned
  | succ fuel induction =>
      have fresh : rqdata.Sound (start, []) :=
        ⟨sound.squash, sound.collated, by simp⟩
      have wave := fresh.foldl endpoints sound.label
      simp only [RunQueueData.processEndpoints] at returned
      split at returned
      · cases returned
        exact ⟨wave.squash, wave.collated, by simp⟩
      · exact induction wave returned

variable (rqdata)

/-- `source` has been recorded at `point`. -/
def Held (collapse : SceneCollapse Tid) (source point : Tid) : Prop :=
  source ∈ collapse.sqRevdepsSquash point ∨
    (point ∉ rqdata.runqSetsceneTids ∧
      point ∈ collapse.sqCollatedDeps source)

/-- What is still to be propagated.  `rest` is the part of the current wave
that has not been processed; the second component of `acc` is the next wave. -/
structure Propagating (rest : Endpoints Tid)
    (acc : SceneCollapse Tid × Endpoints Tid) : Prop where
  first : ∀ {source dep}, source ∈ rqdata.runqSetsceneTids →
    dep ∈ rqdata.depends source →
      rqdata.Held acc.1 source dep ∨
        ∃ label, (dep, label) ∈ rest ∧ source ∈ label
  next : ∀ {source point dep}, point ∉ rqdata.runqSetsceneTids →
    point ∈ acc.1.sqCollatedDeps source → dep ∈ rqdata.depends point →
      rqdata.Held acc.1 source dep
  squashed : ∀ {source point}, point ∉ rqdata.runqSetsceneTids →
    source ∈ acc.1.sqRevdepsSquash point →
      point ∈ rest.keys ∨ point ∈ acc.2.keys ∨ acc.1.sqRevdeps point ≠ []
  waiting : ∀ {point dep}, point ∈ acc.1.sqRevdeps dep →
    point ∈ rest.keys ∨ point ∈ acc.2.keys ∨ acc.1.sqRevdeps point ≠ []
  pending : ∀ {point dep}, point ∈ acc.1.sqRevdeps dep →
    dep ∈ rqdata.depends point ∧ point ∉ rqdata.runqSetsceneTids

variable {rqdata} {rest : Endpoints Tid}
  (propagating : rqdata.Propagating ((point, task) :: rest) acc)
include propagating

private theorem Propagating.processScene
    (scene : point ∈ rqdata.runqSetsceneTids) :
    rqdata.Propagating rest (rqdata.processPoint acc (point, task)) := by
  rw [rqdata.processPoint_scene scene]
  have keeps : ∀ {source dep}, rqdata.Held acc.1 source dep →
      rqdata.Held { acc.1 with
        sqRevdepsSquash := SceneCollapse.addAll acc.1.sqRevdepsSquash point
          task } source dep :=
    Or.imp_left fun old => SceneCollapse.mem_addAll.mpr (.inl old)
  have later : ∀ {other : Tid}, other ∉ rqdata.runqSetsceneTids →
      other ∈ Dict.keys ((point, task) :: rest) ∨ other ∈ acc.2.keys ∨
          acc.1.sqRevdeps other ≠ [] →
        other ∈ rest.keys ∨ other ∈ acc.2.keys ∨
          acc.1.sqRevdeps other ≠ [] := by
    intro other normal queued
    refine queued.imp_left fun member => ?_
    rcases List.mem_cons.mp member with same | found
    · exact absurd (same ▸ scene) normal
    · exact found
  refine ⟨?_, ?_, ?_, ?_, propagating.pending⟩
  · intro source dep isScene edge
    rcases propagating.first isScene edge with held | ⟨label, member, inside⟩
    · exact .inl (keeps held)
    · rcases List.mem_cons.mp member with same | found
      · cases same
        exact .inl (.inl (SceneCollapse.mem_addAll.mpr (.inr ⟨rfl, inside⟩)))
      · exact .inr ⟨label, found, inside⟩
  · intro source other dep normal collated edge
    exact keeps (propagating.next normal collated edge)
  · intro source other normal squashed
    rcases SceneCollapse.mem_addAll.mp squashed with old | ⟨same, _⟩
    · exact later normal (propagating.squashed normal old)
    · exact absurd (same ▸ scene) normal
  · intro other dep member
    exact later (propagating.pending member).2 (propagating.waiting member)

private theorem Propagating.processNormal
    (normal : point ∉ rqdata.runqSetsceneTids) :
    rqdata.Propagating rest (rqdata.processPoint acc (point, task)) := by
  have processed := rqdata.processPoint_normal acc task normal
  generalize rqdata.processPoint acc (point, task) = after at processed ⊢
  have keeps : ∀ {source dep}, rqdata.Held acc.1 source dep →
      rqdata.Held after.1 source dep := by
    rintro source dep (squashed | ⟨isNormal, collated⟩)
    · by_cases same : dep = point
      · subst same
        exact .inr ⟨normal, processed.collated.mpr (.inr ⟨rfl, .inr squashed⟩)⟩
      · exact .inl (processed.squash.mpr (.inl ⟨same, squashed⟩))
    · exact .inr ⟨isNormal, processed.collated.mpr (.inl collated)⟩
  -- A point that had a way to be processed still has one, unless it is the
  -- point just processed.
  have later : ∀ {other : Tid}, other ∉ rqdata.runqSetsceneTids →
      other ≠ point →
      other ∈ Dict.keys ((point, task) :: rest) ∨ other ∈ acc.2.keys ∨
          acc.1.sqRevdeps other ≠ [] →
        other ∈ rest.keys ∨ other ∈ after.2.keys ∨
          after.1.sqRevdeps other ≠ [] := by
    intro other isNormal different queued
    rcases queued with member | member | waits
    · refine .inl ((List.mem_cons.mp member).resolve_left different)
    · exact .inr (.inl (processed.keys member))
    · by_cases drained : after.1.sqRevdeps other = []
      · by_cases edge : other ∈ rqdata.depends point
        · exact .inr (.inl (processed.queued edge isNormal drained))
        · obtain ⟨tid, inside⟩ := List.exists_mem_of_ne_nil _ waits
          have kept := processed.sqRevdeps.mpr
            ⟨inside, fun both => edge both.1⟩
          rw [drained] at kept
          exact absurd kept List.not_mem_nil
      · exact .inr (.inr drained)
  refine ⟨?_, ?_, ?_, ?_, ?_⟩
  · intro source dep isScene edge
    rcases propagating.first isScene edge with held | ⟨label, member, inside⟩
    · exact .inl (keeps held)
    · rcases List.mem_cons.mp member with same | found
      · cases same
        exact .inl (.inr ⟨normal,
          processed.collated.mpr (.inr ⟨rfl, .inl inside⟩)⟩)
      · exact .inr ⟨label, found, inside⟩
  · intro source other dep isNormal collated edge
    rcases processed.collated.mp collated with old | ⟨same, carried⟩
    · exact keeps (propagating.next isNormal old edge)
    · exact .inl (processed.squash.mpr (.inr ⟨same ▸ edge, carried⟩))
  · intro source other isNormal squashed
    rcases processed.squash.mp squashed with ⟨different, old⟩ | ⟨edge, _⟩
    · exact later isNormal different (propagating.squashed isNormal old)
    · by_cases drained : after.1.sqRevdeps other = []
      · exact .inr (.inl (processed.queued edge isNormal drained))
      · exact .inr (.inr drained)
  · intro other dep member
    obtain ⟨old, kept⟩ := processed.sqRevdeps.mp member
    have different : other ≠ point := fun same =>
      kept ⟨same ▸ (propagating.pending old).1, same⟩
    exact later (propagating.pending old).2 different
      (propagating.waiting old)
  · intro other dep member
    exact propagating.pending (processed.sqRevdeps.mp member).1

theorem Propagating.processPoint :
    rqdata.Propagating rest (rqdata.processPoint acc (point, task)) := by
  by_cases scene : point ∈ rqdata.runqSetsceneTids
  · exact propagating.processScene scene
  · exact propagating.processNormal scene

omit propagating

theorem Propagating.foldl {wave : Endpoints Tid}
    (propagating : rqdata.Propagating wave acc) :
    rqdata.Propagating [] (wave.foldl rqdata.processPoint acc) := by
  induction wave generalizing acc with
  | nil => exact propagating
  | cons endpoint wave induction => exact induction propagating.processPoint

omit [LinearOrder Tid] in
theorem Propagating.nextWave (propagating : rqdata.Propagating [] acc) :
    rqdata.Propagating acc.2 (acc.1, []) := by
  refine ⟨?_, propagating.next, ?_, ?_, propagating.pending⟩
  · intro source dep scene edge
    rcases propagating.first scene edge with held | ⟨_, member, _⟩
    · exact .inl held
    · exact absurd member List.not_mem_nil
  · intro source point normal squashed
    rcases propagating.squashed normal squashed with none | queued
    · exact absurd none List.not_mem_nil
    · exact queued.imp_right .inr
  · intro point dep member
    rcases propagating.waiting member with none | queued
    · exact absurd none List.not_mem_nil
    · exact queued.imp_right .inr

theorem Propagating.processEndpoints {fuel : ℕ} {endpoints : Endpoints Tid}
    (propagating : rqdata.Propagating endpoints (start, []))
    (returned : rqdata.processEndpoints fuel start endpoints = .ok final) :
    rqdata.Propagating [] (final, []) := by
  induction fuel generalizing start endpoints with
  | zero => simp [RunQueueData.processEndpoints] at returned
  | succ fuel induction =>
      have wave := propagating.foldl
      simp only [RunQueueData.processEndpoints] at returned
      split at returned
      · rename_i drained
        cases returned
        have nextWave := wave.nextWave
        rwa [drained] at nextWave
      · exact induction wave.nextWave returned

omit [LinearOrder Tid] in
/-- Nothing waits at the end: a waiting point would have a waiting reverse
dependency, and the graph has no infinite chain of those. -/
private theorem Propagating.drained
    (propagating : rqdata.Propagating [] (final, [])) (point : Tid) :
    final.sqRevdeps point = [] := by
  induction point using rqdata.wellFounded_revdeps.induction with
  | _ point induction =>
      by_contra waits
      obtain ⟨above, member⟩ := List.exists_mem_of_ne_nil _ waits
      have edge := (propagating.pending member).1
      rcases propagating.waiting member with none | none | more
      · exact List.not_mem_nil none
      · exact List.not_mem_nil none
      · exact more (induction above edge)

omit [LinearOrder Tid] in
theorem Propagating.squash_normal
    (propagating : rqdata.Propagating [] (final, []))
    (normal : point ∉ rqdata.runqSetsceneTids) :
    final.sqRevdepsSquash point = [] := by
  apply List.eq_nil_iff_forall_not_mem.mpr
  intro source squashed
  rcases propagating.squashed normal squashed with none | none | more
  · exact List.not_mem_nil none
  · exact List.not_mem_nil none
  · exact more (propagating.drained point)

omit [LinearOrder Tid] in
theorem Propagating.held_of_source
    (propagating : rqdata.Propagating [] (final, [])) {source point : Tid}
    (reached : rqdata.Source source point) :
    rqdata.Held final source point := by
  obtain ⟨scene, path⟩ := reached
  induction path with
  | single edge =>
      rcases propagating.first scene edge with held | ⟨_, member, _⟩
      · exact held
      · exact absurd member List.not_mem_nil
  | tail _ normal edge held =>
      rcases held with squashed | ⟨_, collated⟩
      · rw [propagating.squash_normal normal] at squashed
        exact absurd squashed List.not_mem_nil
      · exact propagating.next normal collated edge

end RunQueueData

end Nvbmc.RunQueue
