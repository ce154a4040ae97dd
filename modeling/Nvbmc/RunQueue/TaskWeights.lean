import Mathlib.Algebra.BigOperators.Group.List.Basic
import Mathlib.Algebra.Ring.Nat
import Nvbmc.RunQueue.TaskGraph

/-!
# Task weights

`calculate_task_weights` passes weights on from the tasks that no task depends
on.  A task is reached when all that depend on it have passed theirs on, and the
tasks that are never reached are those behind a cycle, whose chains are then
looked for.
-/

namespace Nvbmc.RunQueue

open Nvbmc.Library

/-- `rqdata.runtaskentries` with its reverse dependencies, before cycles are
looked for. Sets are lists without duplicates, in the order in which they are
walked through. -/
structure TaskEntries (Tid : Type) where
  runtaskentries : List Tid
  depends : Tid → List Tid
  revdeps : Tid → List Tid
  nodup : runtaskentries.Nodup
  depends_nodup : ∀ tid, (depends tid).Nodup
  revdeps_nodup : ∀ tid, (revdeps tid).Nodup
  depends_mem : ∀ {tid dep}, dep ∈ depends tid →
    tid ∈ runtaskentries ∧ dep ∈ runtaskentries
  mem_revdeps : ∀ {tid dep}, tid ∈ revdeps dep ↔ dep ∈ depends tid

def TaskEntries.ofEdges {Tid : Type} [DecidableEq Tid]
    (runtaskentries : List Tid) (edges : List (Tid × Tid))
    (nodup : runtaskentries.Nodup) (edgesNodup : edges.Nodup)
    (closed : ∀ edge ∈ edges, edge.1 ∈ runtaskentries ∧
      edge.2 ∈ runtaskentries) :
    TaskEntries Tid where
  runtaskentries := runtaskentries
  depends tid := (edges.filter (·.1 = tid)).map Prod.snd
  revdeps dep := (edges.filter (·.2 = dep)).map Prod.fst
  nodup := nodup
  depends_nodup tid := by
    apply (edgesNodup.filter _).map_on
    intro first firstIn second secondIn same
    have firstTid : first.1 = tid := by
      simpa using (List.mem_filter.mp firstIn).2
    have secondTid : second.1 = tid := by
      simpa using (List.mem_filter.mp secondIn).2
    exact Prod.ext (firstTid.trans secondTid.symm) same
  revdeps_nodup dep := by
    apply (edgesNodup.filter _).map_on
    intro first firstIn second secondIn same
    have firstDep : first.2 = dep := by
      simpa using (List.mem_filter.mp firstIn).2
    have secondDep : second.2 = dep := by
      simpa using (List.mem_filter.mp secondIn).2
    exact Prod.ext same (firstDep.trans secondDep.symm)
  depends_mem := by
    intro tid dep member
    obtain ⟨edge, found, target⟩ := List.mem_map.mp member
    obtain ⟨isEdge, source⟩ := List.mem_filter.mp found
    have ends := closed edge isEdge
    rw [target, of_decide_eq_true source] at ends
    exact ends
  mem_revdeps := by
    intro tid dep
    simp

theorem TaskEntries.acyclic_ofEdges {Tid : Type} [DecidableEq Tid]
    {runtaskentries : List Tid} {edges : List (Tid × Tid)}
    {nodup : runtaskentries.Nodup} {edgesNodup : edges.Nodup}
    {closed : ∀ edge ∈ edges, edge.1 ∈ runtaskentries ∧ edge.2 ∈ runtaskentries}
    (rank : Tid → ℕ) (decreasing : ∀ edge ∈ edges, rank edge.2 < rank edge.1) :
    Acyclic fun dep tid => dep ∈
      (ofEdges runtaskentries edges nodup edgesNodup closed).depends tid
    := by
  apply Acyclic.of_lt rank
  intro dep tid member
  obtain ⟨edge, found, target⟩ := List.mem_map.mp member
  obtain ⟨isEdge, source⟩ := List.mem_filter.mp found
  have smaller := decreasing edge isEdge
  rwa [target, of_decide_eq_true source] at smaller

/-- What `circular_depchains_handler` tells about. -/
inductive ChainMessage (Tid : Type) where
  /-- `Dependency loop #%d found:` -/
  | found (number : ℕ)
  /-- `Task %s (dependent Tasks %s)` -/
  | task (dep : Tid) (depends : List Tid)
  | newline
  /-- `Halted dependency loops search after 10 matches.` -/
  | halted

structure ChainSearch (Tid : Type) where
  validChains : List (List Tid)
  exploredDeps : Tid → Option (List Tid)
  msgs : List (ChainMessage Tid)

structure Weighing (Tid : Type) where
  weight : Tid → ℕ
  depsLeft : Tid → ℤ
  taskDone : Tid → Bool
  nextPoints : List Tid

section Snoc

variable {Tid : Type} [DecidableEq Tid] {items passed : List Tid} {tid : Tid}

theorem perm_filter_snoc (nodup : items.Nodup) (new : tid ∉ passed)
    (member : tid ∈ items) :
    (items.filter (· ∈ passed ++ [tid])).Perm
      (tid :: items.filter (· ∈ passed)) := by
  rw [List.perm_ext_iff_of_nodup (nodup.filter _)
    (List.nodup_cons.mpr ⟨by simp [new], nodup.filter _⟩)]
  intro other
  by_cases same : other = tid
  · simp [same, member]
  · simp [same]

theorem filter_snoc_of_notMem (absent : tid ∉ items) :
    items.filter (· ∈ passed ++ [tid]) = items.filter (· ∈ passed) := by
  apply List.filter_congr
  intro item member
  have different : item ≠ tid := fun same => absent (same ▸ member)
  simp [different]

theorem sum_filter_snoc (value : Tid → ℕ) (nodup : items.Nodup)
    (new : tid ∉ passed) :
    ((items.filter (· ∈ passed ++ [tid])).map value).sum =
      ((items.filter (· ∈ passed)).map value).sum +
        if tid ∈ items then value tid else 0 := by
  split_ifs with member
  · rw [((perm_filter_snoc nodup new member).map value).sum_eq]
    simp [Nat.add_comm]
  · rw [filter_snoc_of_notMem member, Nat.add_zero]

theorem length_filter_notMem (tids : List Tid) :
    ((items.filter (· ∉ tids)).length : ℤ) = items.length -
      (items.filter (· ∈ tids)).length := by
  have parts := List.length_eq_length_filter_add (l := items) (· ∈ tids)
  simp only [decide_not]
  omega

theorem length_filter_snoc (nodup : items.Nodup) (new : tid ∉ passed) :
    ((items.filter (· ∉ passed ++ [tid])).length : ℤ) =
      (items.filter (· ∉ passed)).length - if tid ∈ items then 1 else 0 := by
  rw [length_filter_notMem, length_filter_notMem]
  split_ifs with member
  · rw [(perm_filter_snoc nodup new member).length_eq, List.length_cons]
    omega
  · rw [filter_snoc_of_notMem member, sub_zero]

end Snoc

namespace TaskEntries

variable {Tid : Type} [LinearOrder Tid] (entries : TaskEntries Tid)

/-- `chain_reorder`: the lowest task comes first. -/
def chainReorder (chain : List Tid) : List Tid :=
  chain.dropWhile (fun tid => chain.any (· < tid)) ++
    chain.takeWhile fun tid => chain.any (· < tid)

/-- A chain comes back to one of its tasks; an error is `TooManyLoops`. -/
def loopFound (prevChain : List Tid) (revdep : Tid) (search : ChainSearch Tid) :
    Except (ChainSearch Tid) (ChainSearch Tid) :=
  let newChain := chainReorder (prevChain.dropWhile (· ≠ revdep))
  let search :=
    if newChain ∈ search.validChains then search
    else { search with
      validChains := search.validChains ++ [newChain]
      msgs := search.msgs ++ .found (search.validChains.length + 1) ::
        newChain.map (fun dep => .task dep (entries.depends dep)) ++
          [.newline] }
  if search.validChains.length > 10 then
    .error { search with msgs := search.msgs ++ [.halted] }
  else .ok search

def scan (prevChain : List Tid) (revdep : Tid) (search : ChainSearch Tid) :
    Bool :=
  match search.exploredDeps revdep with
  | none => true
  | some deps => revdep ∈ deps || prevChain.any (· ∈ deps)

def addDeps (totalDeps deps : List Tid) : List Tid :=
  deps.foldl (fun total dep => if dep ∈ total then total else total ++ [dep])
    totalDeps

/-- The loop of `find_chains` over the reverse dependencies; no result for a
missing entry of `explored_deps`. -/
def exploreRevdeps
    (findChains : Tid → List Tid → ChainSearch Tid →
      Option (Except (ChainSearch Tid) (ChainSearch Tid)))
    (prevChain : List Tid) : List Tid → List Tid → ChainSearch Tid →
      Option (Except (ChainSearch Tid) (ChainSearch Tid × List Tid))
  | [], totalDeps, search => some (.ok (search, totalDeps))
  | revdep :: revdeps, totalDeps, search =>
      if revdep ∈ prevChain then
        match entries.loopFound prevChain revdep search with
        | .error search => some (.error search)
        | .ok search =>
            exploreRevdeps findChains prevChain revdeps totalDeps search
      else
        match if scan prevChain revdep search then findChains revdep prevChain
          search
          else some (.ok search) with
        | none => none
        | some (.error search) => some (.error search)
        | some (.ok search) =>
            match search.exploredDeps revdep with
            | none => none
            | some deps =>
                exploreRevdeps findChains prevChain revdeps
                  (addDeps totalDeps deps) search

/-- `find_chains`, at most so many calls inside each other. -/
def findChains : ℕ → Tid → List Tid → ChainSearch Tid →
    Option (Except (ChainSearch Tid) (ChainSearch Tid))
  | 0, _, _, _ => none
  | fuel + 1, tid, prevChain, search =>
      match entries.exploreRevdeps (findChains fuel) (prevChain ++ [tid])
        (entries.revdeps tid) (entries.revdeps tid) search with
      | none => none
      | some (.error search) => some (.error search)
      | some (.ok (search, totalDeps)) => some (.ok { search with
          exploredDeps :=
            Function.update search.exploredDeps tid (some totalDeps) })

def handleTasks : List Tid → ChainSearch Tid → Option (ChainSearch Tid)
  | [], search => some search
  | task :: tasks, search =>
      match entries.findChains (entries.runtaskentries.length + 1) task []
        search with
      | none => none
      | some (.error search) => some search
      | some (.ok search) => handleTasks tasks search

/-- `circular_depchains_handler`. -/
def circularDepchainsHandler (tasks : List Tid) :
    Option (List (ChainMessage Tid)) :=
  (entries.handleTasks tasks ⟨[], fun _ => none, []⟩).map ChainSearch.msgs

/-- The tasks at the end of dependency chains. -/
def endpoints : List Tid :=
  entries.runtaskentries.filter fun tid => entries.revdeps tid = []

def startWeighing (endpoints : List Tid) : Weighing Tid where
  weight tid := if tid ∈ endpoints then 10 else 1
  depsLeft tid := (entries.revdeps tid).length
  taskDone tid := tid ∈ endpoints
  nextPoints := []

/-- The weight of a task is passed on to one that it depends on. -/
def passOn (tid : Tid) (state : Weighing Tid) (revdep : Tid) : Weighing Tid :=
  { weight := Function.update state.weight revdep
      (state.weight revdep + state.weight tid)
    depsLeft := Function.update state.depsLeft revdep
      (state.depsLeft revdep - 1)
    taskDone :=
      if state.depsLeft revdep - 1 = 0 then
        Function.update state.taskDone revdep true
      else state.taskDone
    nextPoints :=
      if state.depsLeft revdep - 1 = 0 then state.nextPoints ++ [revdep]
      else state.nextPoints }

def visit (state : Weighing Tid) (tid : Tid) : Weighing Tid :=
  (entries.depends tid).foldl (passOn tid) state

/-- The `while` loop, at most so many times. -/
def waves : ℕ → List Tid → Weighing Tid → Option (Weighing Tid)
  | 0, _, _ => none
  | fuel + 1, endpoints, state =>
      let state := endpoints.foldl entries.visit { state with nextPoints := [] }
      if state.nextPoints = [] then some state
      else waves fuel state.nextPoints state

def problemTasks (state : Weighing Tid) : List Tid :=
  entries.runtaskentries.filter fun tid =>
    state.taskDone tid = false || state.depsLeft tid ≠ 0

/-- `calculate_task_weights`; an error is `bb.msg.fatal`. -/
def calculateTaskWeights (endpoints : List Tid) :
    Option (Except (List (ChainMessage Tid)) (Tid → ℕ)) := do
  let state ← entries.waves (entries.runtaskentries.length + 1) endpoints
    (entries.startWeighing endpoints)
  if entries.problemTasks state = [] then some (.ok state.weight)
  else
    let msgs ← entries.circularDepchainsHandler (entries.problemTasks state)
    some (.error msgs)

section Visit

variable {entries} {state : Weighing Tid} {tid other : Tid}
  {passed queue : List Tid}

/-- What the dependencies of a task get when it passes its weight on. -/
structure Visited (deps : List Tid) (tid : Tid) (state next : Weighing Tid) :
    Prop where
  weight : ∀ other, next.weight other =
    state.weight other + if other ∈ deps then state.weight tid else 0
  depsLeft : ∀ other, next.depsLeft other =
    state.depsLeft other - if other ∈ deps then 1 else 0
  taskDone : ∀ other, next.taskDone other =
    (state.taskDone other || (other ∈ deps && state.depsLeft other = 1))
  nextPoints : next.nextPoints =
    state.nextPoints ++ deps.filter (state.depsLeft · = 1)

theorem visited_foldl {deps : List Tid} (nodup : deps.Nodup)
    (noLoop : tid ∉ deps) :
    Visited deps tid state (deps.foldl (passOn tid) state) := by
  induction deps generalizing state with
  | nil => constructor <;> simp
  | cons dep deps induction =>
      rw [List.nodup_cons] at nodup
      rw [List.mem_cons, not_or] at noLoop
      have rest := @induction (passOn tid state dep) nodup.2 noLoop.2
      have weightTid : (passOn tid state dep).weight tid = state.weight tid :=
        Function.update_of_ne noLoop.1 ..
      have depsLeftOther : ∀ other ≠ dep,
          (passOn tid state dep).depsLeft other = state.depsLeft other :=
        fun other different => Function.update_of_ne different ..
      constructor
      · intro other
        rw [List.foldl_cons, rest.weight, weightTid]
        by_cases same : other = dep
        · subst same
          simp [passOn, nodup.1]
        · simp [passOn, same]
      · intro other
        rw [List.foldl_cons, rest.depsLeft]
        by_cases same : other = dep
        · subst same
          simp [passOn, nodup.1]
        · simp [passOn, same]
      · intro other
        rw [List.foldl_cons, rest.taskDone]
        by_cases same : other = dep
        · subst same
          by_cases last : state.depsLeft other = 1
          · simp [passOn, nodup.1, last]
          · have more : state.depsLeft other - 1 ≠ 0 := by omega
            simp [passOn, nodup.1, last, more]
        · rw [depsLeftOther other same]
          by_cases last : state.depsLeft dep - 1 =
            0 <;> simp [passOn, same, last]
      · have unchanged : deps.filter ((passOn tid state dep).depsLeft · = 1) =
            deps.filter (state.depsLeft · = 1) := by
          apply List.filter_congr
          intro other member
          rw [depsLeftOther other fun same => nodup.1 (same ▸ member)]
        rw [List.foldl_cons, rest.nextPoints, unchanged]
        by_cases last : state.depsLeft dep = 1
        · simp [passOn, last]
        · have more : state.depsLeft dep - 1 ≠ 0 := by omega
          simp [passOn, last, more]

def baseWeight (entries : TaskEntries Tid) (tid : Tid) : ℕ :=
  if entries.revdeps tid = [] then 10 else 1

/-- Some tasks have passed their weights on, and those in the queue are next. -/
structure Progress (entries : TaskEntries Tid) (passed queue : List Tid)
    (state : Weighing Tid) : Prop where
  nodup : (passed ++ queue).Nodup
  ready : ∀ tid, tid ∈ passed ++ queue ↔
    tid ∈ entries.runtaskentries ∧ ∀ revdep ∈ entries.revdeps tid,
    revdep ∈ passed
  acyclic : ∀ tid ∈ passed ++ queue,
    Acc (fun revdep tid => revdep ∈ entries.revdeps tid) tid
  weight : ∀ tid ∈ entries.runtaskentries, state.weight tid =
    entries.baseWeight tid +
    (((entries.revdeps tid).filter (· ∈ passed)).map state.weight).sum
  depsLeft : ∀ tid, state.depsLeft tid =
    ((entries.revdeps tid).filter (· ∉ passed)).length
  taskDone : ∀ tid, state.taskDone tid = true ↔ tid ∈ passed ++ queue

section Step

variable (progress : Progress entries passed (tid :: queue) state)
include progress

theorem Progress.notMem_passed : tid ∉ passed := by
  have apart := progress.nodup
  rw [List.nodup_append] at apart
  intro member
  exact apart.2.2 tid member tid (List.mem_cons_self ..) rfl

theorem Progress.not_revdep {other : Tid}
    (member : other ∈ passed ++ tid :: queue) :
    tid ∉ entries.revdeps other := by
  intro revdep
  exact progress.notMem_passed (((progress.ready other).mp member).2 tid revdep)

theorem Progress.visited :
    Visited (entries.depends tid) tid state (entries.visit state tid) := by
  apply visited_foldl (entries.depends_nodup tid)
  intro loop
  exact progress.not_revdep (List.mem_append_right _ (List.mem_cons_self ..))
    (entries.mem_revdeps.mpr loop)

theorem Progress.depsLeft_eq_one {dep : Tid}
    (member : dep ∈ entries.depends tid) :
    state.depsLeft dep = 1 ↔ ∀ revdep ∈ entries.revdeps dep,
      revdep ∈ passed ++ [tid] := by
  have revdep : tid ∈ entries.revdeps dep := entries.mem_revdeps.mpr member
  have fewer :=
    length_filter_snoc (entries.revdeps_nodup dep) progress.notMem_passed
  rw [if_pos revdep, ← progress.depsLeft] at fewer
  have lastOne : state.depsLeft dep = 1 ↔
      ((entries.revdeps dep).filter (· ∉ passed ++ [tid])).length = 0 := by
    omega
  rw [lastOne, List.length_eq_zero_iff, List.filter_eq_nil_iff]
  simp [or_iff_not_imp_left]

theorem Progress.ready_visit (other : Tid) :
    other ∈ passed ++ [tid] ++
        (queue ++ (entries.depends tid).filter (state.depsLeft · = 1)) ↔
      other ∈ entries.runtaskentries ∧
        ∀ revdep ∈ entries.revdeps other, revdep ∈ passed ++ [tid] := by
  have regroup : other ∈ passed ++ [tid] ++
        (queue ++ (entries.depends tid).filter (state.depsLeft · = 1)) ↔
      other ∈ passed ++ tid :: queue ∨
        (other ∈ entries.depends tid ∧ state.depsLeft other = 1) := by
    simp only [List.mem_append, List.mem_cons, List.mem_filter,
      decide_eq_true_eq, List.not_mem_nil]
    tauto
  rw [regroup]
  constructor
  · intro reached
    rcases reached with before | ⟨member, lastOne⟩
    · obtain ⟨known, ready⟩ := (progress.ready other).mp before
      exact ⟨known, fun revdep member =>
        List.mem_append_left _ (ready revdep member)⟩
    · exact ⟨(entries.depends_mem member).2,
        (progress.depsLeft_eq_one member).mp lastOne⟩
  · intro isReady
    obtain ⟨known, ready⟩ := isReady
    by_cases revdep : tid ∈ entries.revdeps other
    · have member := entries.mem_revdeps.mp revdep
      exact .inr ⟨member, (progress.depsLeft_eq_one member).mpr ready⟩
    · refine .inl ((progress.ready other).mpr ⟨known, ?_⟩)
      intro before member
      rcases List.mem_append.mp (ready before member) with passed | same
      · exact passed
      · rw [List.mem_singleton.mp same] at member
        exact absurd member revdep

theorem Progress.nodup_visit :
    (passed ++ [tid] ++
      (queue ++ (entries.depends tid).filter
        (state.depsLeft · = 1))).Nodup := by
  have regroup : passed ++ [tid] ++
        (queue ++ (entries.depends tid).filter (state.depsLeft · = 1)) =
      passed ++ tid :: queue ++ (entries.depends tid).filter
        (state.depsLeft · = 1) := by
    simp
  rw [regroup, List.nodup_append]
  refine ⟨progress.nodup, (entries.depends_nodup tid).filter _, ?_⟩
  intro other before dep member same
  subst same
  exact progress.not_revdep before
    (entries.mem_revdeps.mpr (List.mem_filter.mp member).1)

theorem Progress.visit :
    Progress entries (passed ++ [tid])
      (queue ++ (entries.depends tid).filter (state.depsLeft · = 1))
      (entries.visit state tid) := by
  have visited := progress.visited
  have revdep_iff : ∀ {other}, other ∈ entries.depends tid ↔
      tid ∈ entries.revdeps other :=
    entries.mem_revdeps.symm
  constructor
  case nodup => exact progress.nodup_visit
  case ready => exact progress.ready_visit
  case acyclic =>
      intro other reached
      constructor
      intro revdep member
      have passedOn := ((progress.ready_visit other).mp reached).2 revdep member
      apply progress.acyclic
      simp only [List.mem_append, List.mem_cons, List.not_mem_nil, or_false]
        at passedOn ⊢
      tauto
  case weight =>
      intro other known
      have settled : ∀ revdep ∈ passed ++ [tid],
          (entries.visit state tid).weight revdep = state.weight revdep := by
        intro revdep member
        have before : revdep ∈ passed ++ tid :: queue := by
          simp only [List.mem_append, List.mem_cons, List.not_mem_nil, or_false]
            at member ⊢
          tauto
        rw [visited.weight, if_neg, Nat.add_zero]
        rw [revdep_iff]
        exact progress.not_revdep before
      have sameSum : ((entries.revdeps other).filter (· ∈ passed ++ [tid])).map
            (entries.visit state tid).weight =
          ((entries.revdeps other).filter (· ∈ passed ++ [tid])).map
            state.weight := by
        apply List.map_congr_left
        intro revdep member
        exact settled revdep (by simpa using (List.mem_filter.mp member).2)
      rw [sameSum, sum_filter_snoc _ (entries.revdeps_nodup other)
        progress.notMem_passed,
        visited.weight, progress.weight other known, Nat.add_assoc]
      simp only [revdep_iff]
  case depsLeft =>
      intro other
      rw [visited.depsLeft, progress.depsLeft,
        length_filter_snoc (entries.revdeps_nodup other) progress.notMem_passed]
      simp only [revdep_iff]
  case taskDone =>
      intro other
      rw [visited.taskDone, Bool.or_eq_true, progress.taskDone]
      simp only [Bool.and_eq_true, decide_eq_true_eq, List.mem_append,
        List.mem_cons, List.mem_filter, List.not_mem_nil]
      tauto

end Step

theorem Progress.length_le (progress : Progress entries passed queue state) :
    (passed ++ queue).length ≤ entries.runtaskentries.length := by
  have known : passed ++ queue ⊆ entries.runtaskentries := by
    intro tid member
    exact ((progress.ready tid).mp member).1
  exact (progress.nodup.subperm known).length_le

theorem Progress.forget (progress : Progress entries passed queue state) :
    Progress entries passed queue { state with nextPoints := [] } :=
  ⟨progress.nodup, progress.ready, progress.acyclic, progress.weight,
    progress.depsLeft, progress.taskDone⟩

theorem Progress.wave {wave : List Tid}
    (progress : Progress entries passed (wave ++ state.nextPoints) state) :
    Progress entries (passed ++ wave)
      (wave.foldl entries.visit state).nextPoints
      (wave.foldl entries.visit state) := by
  induction wave generalizing passed state with
  | nil => simpa using progress
  | cons tid wave induction =>
      rw [List.cons_append] at progress
      have visited := progress.visited
      have next := progress.visit
      rw [List.append_assoc, ← visited.nextPoints] at next
      have rest := induction next
      rwa [List.append_assoc, List.singleton_append] at rest

theorem Progress.waves {fuel : ℕ}
    (progress : Progress entries passed queue state)
    (enough : entries.runtaskentries.length < fuel + passed.length) :
    ∃ final done, entries.waves fuel queue state = some final ∧
      Progress entries done [] final := by
  induction fuel generalizing passed queue state with
  | zero =>
      have bound := progress.length_le
      rw [List.length_append] at bound
      omega
  | succ fuel induction =>
      let emptied : Weighing Tid := { state with nextPoints := [] }
      have start : Progress entries passed (queue ++ emptied.nextPoints)
          emptied := by
        simpa [emptied] using progress.forget
      have after := start.wave
      rw [TaskEntries.waves]
      split_ifs with noNext
      · rw [noNext] at after
        exact ⟨_, _, rfl, after⟩
      · apply induction after
        have waiting : queue ≠ [] := by
          intro empty
          exact noNext (by simp [empty])
        have positive := List.length_pos_iff.mpr waiting
        rw [List.length_append]
        omega

theorem progress_start :
    Progress entries [] entries.endpoints
      (startWeighing entries entries.endpoints) := by
  have noRevdeps : ∀ tid, tid ∈ entries.endpoints ↔
      tid ∈ entries.runtaskentries ∧ entries.revdeps tid = [] := by
    simp [endpoints]
  constructor
  case nodup => exact entries.nodup.filter _
  case ready =>
      intro tid
      rw [List.nil_append, noRevdeps, List.eq_nil_iff_forall_not_mem]
      simp
  case acyclic =>
      intro tid member
      constructor
      intro revdep edge
      rw [((noRevdeps tid).mp member).2] at edge
      cases edge
  case weight =>
      intro tid known
      simp [startWeighing, baseWeight, noRevdeps, known]
  case depsLeft =>
      intro tid
      simp [startWeighing]
  case taskDone =>
      intro tid
      simp [startWeighing]

theorem Progress.all_passed (progress : Progress entries passed [] state) :
    (∀ tid ∈ entries.runtaskentries, tid ∈ passed) ↔
      Acyclic fun dep tid => dep ∈ entries.depends tid := by
  have edge_iff : ∀ revdep tid, revdep ∈ entries.revdeps tid ↔
      tid ∈ entries.depends revdep :=
    fun revdep tid => entries.mem_revdeps
  constructor
  · intro all
    have wellFounded : WellFounded fun revdep tid => revdep ∈
        entries.revdeps tid := by
      constructor
      intro tid
      constructor
      intro revdep edge
      apply progress.acyclic
      rw [List.append_nil]
      exact all revdep (entries.depends_mem (entries.mem_revdeps.mp edge)).1
    intro tid cycle
    have backwards := Relation.transGen_swap.mpr cycle
    simp only [← edge_iff] at backwards
    exact wellFounded.transGen.asymmetric _ _ backwards backwards
  · intro acyclic tid known
    have supported : ∀ revdep tid, tid ∈ entries.depends revdep →
        revdep ∈ entries.runtaskentries.toFinset :=
      fun revdep tid edge => List.mem_toFinset.mpr (entries.depends_mem edge).1
    have wellFounded := acyclic.swap.wellFounded supported
    induction tid using wellFounded.induction with
    | _ tid induction =>
        have reached : tid ∈ passed ++ [] := by
          rw [progress.ready]
          refine ⟨known, ?_⟩
          intro revdep edge
          have depends := entries.mem_revdeps.mp edge
          exact induction revdep depends (entries.depends_mem depends).1
        simpa using reached

theorem Progress.problemTasks_eq_nil
    (progress : Progress entries passed [] state) :
    entries.problemTasks state = [] ↔ ∀ tid ∈ entries.runtaskentries,
      tid ∈ passed := by
  rw [problemTasks, List.filter_eq_nil_iff]
  apply forall₂_congr
  intro tid known
  have done := progress.taskDone tid
  rw [List.append_nil] at done
  constructor
  · intro fine
    rw [← done]
    simp only [Bool.or_eq_true, decide_eq_true_eq, not_or, Bool.not_eq_false]
      at fine
    exact fine.1
  · intro member
    have nothingLeft : state.depsLeft tid = 0 := by
      have ready := ((progress.ready tid).mp (by simpa using member)).2
      rw [progress.depsLeft, Int.natCast_eq_zero, List.length_eq_zero_iff,
        List.filter_eq_nil_iff]
      simpa using ready
    simp [done.mpr member, nothingLeft]

end Visit

section Search

variable {entries} {search : ChainSearch Tid} {prevChain : List Tid}

def Keeps (search next : ChainSearch Tid) : Prop :=
  ∀ tid, (search.exploredDeps tid).isSome → (next.exploredDeps tid).isSome

/-- A call gives a result, and its task is explored then unless there were too
many loops. -/
def Explores
    (call : ChainSearch Tid →
      Option (Except (ChainSearch Tid) (ChainSearch Tid))) (tid : Tid) : Prop :=
  ∀ search, ∃ result, call search = some result ∧
    ∀ next, result = .ok next → Keeps search next ∧
      (next.exploredDeps tid).isSome

theorem keeps_loopFound {revdep : Tid} {next : ChainSearch Tid}
    (found : entries.loopFound prevChain revdep search = .ok next) :
    Keeps search next := by
  rw [loopFound] at found
  intro tid explored
  split_ifs at found <;> cases found <;> exact explored

theorem isSome_of_not_scan {revdep : Tid}
    (known : scan prevChain revdep search = false) :
    (search.exploredDeps revdep).isSome := by
  rw [scan] at known
  cases explored : search.exploredDeps revdep with
  | none => simp [explored] at known
  | some deps => rfl

theorem exploreRevdeps_total {find : Tid → List Tid → ChainSearch Tid →
      Option (Except (ChainSearch Tid) (ChainSearch Tid))} {revdeps totalDeps :
        List Tid}
    (explores : ∀ revdep ∈ revdeps, revdep ∉ prevChain →
      Explores (find revdep prevChain) revdep) :
    ∃ result, entries.exploreRevdeps find prevChain revdeps totalDeps search =
      some result ∧
      ∀ next deps, result = .ok (next, deps) → Keeps search next := by
  induction revdeps generalizing totalDeps search with
  | nil =>
      refine ⟨_, rfl, ?_⟩
      intro next deps same
      cases same
      exact fun _ explored => explored
  | cons revdep revdeps induction =>
      have later : ∀ other ∈ revdeps, other ∉ prevChain →
          Explores (find other prevChain) other :=
        fun other member => explores other (List.mem_cons_of_mem _ member)
      rw [exploreRevdeps]
      by_cases looped : revdep ∈ prevChain
      · rw [if_pos looped]
        cases found : entries.loopFound prevChain revdep search with
        | error stopped =>
            refine ⟨_, rfl, ?_⟩
            intro next deps impossible
            cases impossible
        | ok told =>
            obtain ⟨result, explored, kept⟩ := @induction told totalDeps later
            refine ⟨result, explored, ?_⟩
            intro next deps same tid before
            exact kept next deps same tid (keeps_loopFound found tid before)
      · rw [if_neg looped]
        have called : ∃ result,
            (if scan prevChain revdep search then find revdep prevChain search
              else some (.ok search)) = some result ∧
            ∀ next, result = .ok next →
              Keeps search next ∧ (next.exploredDeps revdep).isSome := by
          cases scanned : scan prevChain revdep search with
          | true =>
              simpa using explores revdep (List.mem_cons_self ..) looped search
          | false =>
              refine ⟨_, rfl, ?_⟩
              intro next same
              cases same
              exact ⟨fun _ explored => explored, isSome_of_not_scan scanned⟩
        obtain ⟨result, call, after⟩ := called
        rw [call]
        cases result with
        | error stopped =>
            refine ⟨_, rfl, ?_⟩
            intro next deps impossible
            cases impossible
        | ok told =>
            obtain ⟨keptThen, isExplored⟩ := after told rfl
            obtain ⟨deps, found⟩ := Option.isSome_iff_exists.mp isExplored
            obtain ⟨result, explored, kept⟩ :=
              @induction told (addDeps totalDeps deps) later
            refine ⟨result, by simpa [found] using explored, ?_⟩
            intro next deps same tid before
            exact kept next deps same tid (keptThen tid before)

theorem findChains_total {fuel : ℕ} {tid : Tid}
    (chain : (prevChain ++ [tid]).Nodup)
    (tasks : prevChain ++ [tid] ⊆ entries.runtaskentries)
    (enough : entries.runtaskentries.length < fuel + prevChain.length) :
    Explores (entries.findChains fuel tid prevChain) tid := by
  induction fuel generalizing tid prevChain with
  | zero =>
      have bound := (chain.subperm tasks).length_le
      rw [List.length_append] at bound
      omega
  | succ fuel induction =>
      intro search
      have explores : ∀ revdep ∈ entries.revdeps tid, revdep ∉ prevChain ++
          [tid] →
          Explores (entries.findChains fuel revdep (prevChain ++ [tid]))
            revdep := by
        intro revdep edge fresh
        have known := (entries.depends_mem (entries.mem_revdeps.mp edge)).1
        apply induction
        · rw [← List.concat_eq_append]
          exact chain.concat fresh
        · exact List.append_subset.mpr ⟨tasks, by simpa using known⟩
        · rw [List.length_append, List.length_singleton]
          omega
      obtain ⟨result, explored, kept⟩ :=
        @exploreRevdeps_total _ _ entries search (prevChain ++ [tid]) _ _
          (entries.revdeps tid) explores
      rw [findChains, explored]
      cases result with
      | error stopped =>
          refine ⟨_, rfl, ?_⟩
          intro next impossible
          cases impossible
      | ok told =>
          obtain ⟨told, deps⟩ := told
          refine ⟨_, rfl, ?_⟩
          intro next same
          cases same
          refine ⟨?_, by simp⟩
          intro other before
          by_cases self : other = tid
          · simp [self]
          · simpa [Function.update_of_ne self] using kept told deps rfl other
              before

theorem handleTasks_total {tasks : List Tid}
    (known : tasks ⊆ entries.runtaskentries) :
    ∃ final, entries.handleTasks tasks search = some final := by
  induction tasks generalizing search with
  | nil => exact ⟨search, rfl⟩
  | cons task tasks induction =>
      rw [List.cons_subset] at known
      have explores : Explores
          (entries.findChains (entries.runtaskentries.length + 1) task [])
          task := by
        apply findChains_total
        · simp
        · simpa using known.1
        · simp
      obtain ⟨result, found, -⟩ := explores search
      rw [handleTasks, found]
      cases result with
      | error stopped => exact ⟨stopped, rfl⟩
      | ok told => exact induction known.2

theorem circularDepchainsHandler_total {tasks : List Tid}
    (known : tasks ⊆ entries.runtaskentries) :
    ∃ msgs, entries.circularDepchainsHandler tasks = some msgs := by
  obtain ⟨final, handled⟩ :=
    @handleTasks_total _ _ entries ⟨[], fun _ => none, []⟩ tasks known
  exact ⟨final.msgs, by rw [circularDepchainsHandler, handled, Option.map_some]⟩

end Search

/-- The weight of every task, in terms of the weights of its reverse
dependencies. -/
def Weighs (weight : Tid → ℕ) : Prop :=
  ∀ tid ∈ entries.runtaskentries,
    weight tid = entries.baseWeight tid + ((entries.revdeps tid).map weight).sum

theorem calculateTaskWeights_cases :
    (Acyclic (fun dep tid => dep ∈ entries.depends tid) ∧ ∃ weight,
      entries.calculateTaskWeights entries.endpoints = some (.ok weight) ∧
        entries.Weighs weight) ∨
    (¬ Acyclic (fun dep tid => dep ∈ entries.depends tid) ∧ ∃ msgs,
      entries.calculateTaskWeights entries.endpoints = some (.error msgs)) := by
  have enough : entries.runtaskentries.length <
      entries.runtaskentries.length + 1 + ([] : List Tid).length := by
    simp
  obtain ⟨final, passed, weighed, progress⟩ :=
    (@progress_start _ _ entries).waves enough
  rw [calculateTaskWeights, weighed, Option.bind_eq_bind, Option.bind_some]
  rw [← progress.all_passed, ← progress.problemTasks_eq_nil]
  split_ifs with noProblem
  · have all := progress.problemTasks_eq_nil.mp noProblem
    refine .inl ⟨noProblem, final.weight, rfl, ?_⟩
    intro tid known
    have everyRevdep : (entries.revdeps tid).filter (· ∈ passed) =
        entries.revdeps tid := by
      rw [List.filter_eq_self]
      intro revdep edge
      simpa using all revdep
        (entries.depends_mem (entries.mem_revdeps.mp edge)).1
    have settled := progress.weight tid known
    rwa [everyRevdep] at settled
  · obtain ⟨msgs, told⟩ := @circularDepchainsHandler_total _ _ entries
      (entries.problemTasks final) (List.filter_subset_self _)
    exact .inr ⟨noProblem, msgs, by simp [told]⟩

/-- The weights are passed on until none is left, and a weight is complete if
there is no cycle; with a cycle there is the fatal error. -/
theorem calculateTaskWeights_spec :
    ∃ outcome, entries.calculateTaskWeights entries.endpoints = some outcome ∧
      ((∃ weight, outcome = .ok weight) ↔
        Acyclic fun dep tid => dep ∈ entries.depends tid) ∧
      ∀ weight, outcome = .ok weight → ∀ tid ∈ entries.runtaskentries,
        weight tid =
          (if entries.revdeps tid = [] then 10 else 1) +
            ((entries.revdeps tid).map weight).sum := by
  rcases entries.calculateTaskWeights_cases with
    ⟨acyclic, weight, calculated, weighs⟩ | ⟨cyclic, msgs, calculated⟩
  · refine ⟨_, calculated, iff_of_true ⟨weight, rfl⟩ acyclic, ?_⟩
    intro other same
    cases same
    exact weighs
  · refine ⟨_, calculated, iff_of_false ?_ cyclic, ?_⟩
    · intro success
      obtain ⟨weight, impossible⟩ := success
      cases impossible
    · intro weight impossible
      cases impossible

end TaskEntries

end Nvbmc.RunQueue
