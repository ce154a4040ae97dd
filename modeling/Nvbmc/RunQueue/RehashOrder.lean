import Nvbmc.Library.Waves
import Nvbmc.RunQueue.Migrations

/-!
# The order of rehashing

The tasks behind those whose unihash has changed are rehashed wave by wave.  A
task is taken when none of its dependencies is left, and then it is taken out of
`total` for good.
-/

namespace Nvbmc.RunQueue

open Nvbmc.Library

theorem suffix_append_cases {α : Type} {item : α} {earlier front back : List α}
    (suffix : item :: earlier <:+ front ++ back) :
    item :: earlier <:+ back ∨ item ∈ front ∧ back <:+ earlier := by
  induction front with
  | nil => exact .inl suffix
  | cons head front induction =>
      rcases List.suffix_cons_iff.mp suffix with whole | inside
      · rw [List.cons.injEq] at whole
        exact .inr ⟨whole.1 ▸ List.mem_cons_self,
          whole.2 ▸ List.suffix_append front back⟩
      · rcases induction inside with inBack | ⟨inFront, behind⟩
        · exact .inl inBack
        · exact .inr ⟨List.mem_cons_of_mem _ inFront, behind⟩

namespace Prepared

variable {Tid : Type} [LinearOrder Tid] (rq : Prepared Tid)

theorem dependents_eq (fuel : ℕ) (next total : List Tid) :
    rq.dependents fuel next total = waves rq.revdeps fuel next total := by
  induction fuel generalizing next total with
  | zero => rfl
  | succ fuel induction =>
      rw [dependents, waves]
      split_ifs
      · rfl
      · exact induction _ _

variable {rq}

theorem nodup_affected {toprocess : List Tid} :
    (rq.affected toprocess).Nodup := by
  rw [affected, dependents_eq]
  exact nodup_waves List.nodup_nil

theorem mem_affected {toprocess : List Tid} {tid : Tid} :
    tid ∈ rq.affected toprocess ↔ ∃ p ∈ toprocess,
      Relation.TransGen (fun dep tid => dep ∈ rq.depends tid) p tid := by
  have known : ∀ first, ∀ second ∈ rq.revdeps first, second ∈
      rq.runtaskentries :=
    fun first second step => (rq.depends_mem (rq.mem_revdeps.mp step)).1
  have sameEdges : (fun first second => second ∈ rq.revdeps first) =
      fun dep tid => dep ∈ rq.depends tid := by
    funext dep tid
    exact propext rq.mem_revdeps
  rw [affected, dependents_eq, @mem_waves _ _ _ _ _ rq.runtaskentries,
    sameEdges]
  · constructor
    · rintro (impossible | ⟨first, member, path⟩)
      · cases impossible
      · obtain ⟨p, isChanged, step⟩ :=
          List.mem_flatMap.mp (List.mem_dedup.mp member)
        exact ⟨p, isChanged, .head' (rq.mem_revdeps.mp step) path⟩
    · rintro ⟨p, isChanged, path⟩
      obtain ⟨first, step, rest⟩ := Relation.TransGen.head'_iff.mp path
      refine .inr ⟨first, List.mem_dedup.mpr ?_, rest⟩
      exact List.mem_flatMap.mpr ⟨p, isChanged, rq.mem_revdeps.mpr step⟩
  · intro item member
    obtain ⟨p, _, step⟩ := List.mem_flatMap.mp (List.mem_dedup.mp member)
    exact ⟨known p item step, by simp⟩
  · exact fun item _ => known item
  · simp
  · have bound :=
      List.length_filter_le (fun tid => decide (tid ∉ ([] : List Tid)))
      rq.runtaskentries
    omega

/-- The tasks of a round that have no dependency left. -/
def readyOf (rq : Prepared Tid) (total next : List Tid) : List Tid :=
  next.filter fun tid => ∀ dep ∈ rq.depends tid, dep ∉ total

theorem foldl_readyTasks {last : Option Tid} {total : List Tid}
    (stale : ∃ p ∈ last, rq.depends p ≠ []) (s : RunQueueExecute Tid)
    (next : List Tid) :
    (next.foldl (rq.readyTasks last total) (s, [])).2.map Prod.fst =
      rq.readyOf total next ∧
    (next.foldl (rq.readyTasks last total) (s, [])).1.events =
      ((rq.readyOf total next).map Event.getTaskhash).reverse ++ s.events := by
  induction next using List.reverseRecOn with
  | nil => exact ⟨rfl, rfl⟩
  | append_singleton done tid induction =>
      obtain ⟨isReady, isLogged⟩ := induction
      rw [List.foldl_append, List.foldl_cons, List.foldl_nil, readyTasks,
        readyOf, List.filter_append]
      by_cases waits : ∃ dep ∈ rq.depends tid, dep ∈ total
      · have notReady : [tid].filter (fun tid => ∀ dep ∈ rq.depends tid,
            dep ∉ total) = [] := by
          simpa using waits
        rw [if_pos ⟨stale, waits⟩, notReady, List.append_nil]
        exact ⟨isReady, isLogged⟩
      · have ready : [tid].filter (fun tid => ∀ dep ∈ rq.depends tid,
            dep ∉ total) = [tid] := by
          simpa using waits
        rw [if_neg fun both => waits both.2, ready]
        constructor
        · rw [List.map_append, isReady]
          rfl
        · rw [List.map_append, List.reverse_append]
          exact congrArg (Event.getTaskhash tid :: ·) isLogged

/-- The ready tasks are taken out of `total`, and those behind them come next.
-/
theorem foldl_rehashTask (unihashes : Tid → Str) {acc : Rehash Tid}
    (fresh : acc.next = []) (ready : List (Tid × Str)) :
    let after := ready.foldl (rq.rehashTask unihashes) acc
    after.s.events = (ready.map fun entry => Event.rehashed entry.1).reverse ++
      acc.s.events ∧
    after.total = acc.total.filter (· ∉ ready.map Prod.fst) ∧ after.next.Nodup ∧
    ∀ tid, tid ∈ after.next ↔
      tid ∈ after.total ∧ ∃ dep ∈ ready.map Prod.fst, dep ∈ rq.depends tid := by
  induction ready using List.reverseRecOn with
  | nil => simp [fresh]
  | append_singleton done entry induction =>
      obtain ⟨isLogged, isTotal, nodup, mem_next⟩ := induction
      rw [List.foldl_append, List.foldl_cons, List.foldl_nil]
      refine ⟨?_, ?_, ?_, fun tid => ?_⟩
      · rw [List.map_append, List.reverse_append]
        have logged : (rq.rehashTask unihashes
            (done.foldl (rq.rehashTask unihashes) acc) entry).s.events =
            Event.rehashed entry.1 ::
              (done.foldl (rq.rehashTask unihashes) acc).s.events := by
          simp only [rehashTask]
          split_ifs <;> rfl
        rw [logged, isLogged]
        rfl
      · show discard (done.foldl (rq.rehashTask unihashes) acc).total entry.1 =
          _
        rw [isTotal, discard, List.filter_filter]
        apply List.filter_congr
        intro tid _
        rw [Bool.eq_iff_iff]
        simp [not_or, and_comm]
      · exact (nodup.union _).filter _
      · show tid ∈
          (rq.revdeps entry.1 ∪
            (done.foldl (rq.rehashTask unihashes) acc).next).filter
            (· ∈ discard (done.foldl (rq.rehashTask unihashes) acc).total
              entry.1) ↔
          tid ∈ discard (done.foldl (rq.rehashTask unihashes) acc).total
            entry.1 ∧ _
        rw [List.mem_filter, List.mem_union_iff, mem_next, rq.mem_revdeps,
          decide_eq_true_eq, and_comm]
        apply and_congr_right
        intro isLeft
        have inTotal := (mem_discard.mp isLeft).1
        simp only [inTotal, true_and, List.map_append, List.mem_append,
          List.map_cons, List.map_nil, List.mem_singleton]
        constructor
        · rintro (step | ⟨dep, member, step⟩)
          · exact ⟨entry.1, .inr rfl, step⟩
          · exact ⟨dep, .inl member, step⟩
        · rintro ⟨dep, member | rfl, step⟩
          · exact .inr ⟨dep, member, step⟩
          · exact .inl step

/-- What holds between the rounds: the tasks of `total` are those that are not
rehashed yet, and those of them that are ready come next. -/
structure Rehashing (rq : Prepared Tid) (affected : List Tid)
    (base : List (Event Tid))
    (acc : Rehash Tid) (logged : List (Event Tid)) : Prop where
  events : acc.s.events = logged ++ base
  nodup : acc.total.Nodup
  total : ∀ tid ∈ acc.total, tid ∈ affected
  nextNodup : acc.next.Nodup
  next : ∀ tid ∈ acc.next, tid ∈ acc.total
  ready : ∀ tid ∈ acc.total, (∀ dep ∈ rq.depends tid, dep ∉ acc.total) →
    tid ∈ acc.next
  hashed : ∀ tid, logged.count (.getTaskhash tid) =
    if tid ∈ affected ∧ tid ∉ acc.total then 1 else 0
  given : ∀ tid ∈ affected, tid ∉ acc.total → .rehashed tid ∈ logged
  order : ∀ tid earlier, .getTaskhash tid :: earlier <:+ logged →
    ∀ dep ∈ rq.depends tid, dep ∈ affected → .rehashed dep ∈ earlier

def rehashRound (rq : Prepared Tid) (last : Option Tid) (acc : Rehash Tid) :
    Rehash Tid :=
  let (s, ready) := acc.next.foldl (rq.readyTasks last acc.total) (acc.s, [])
  let unihashes := rq.world.getUnihashes s.consults
  ready.foldl (rq.rehashTask unihashes) { acc with
    s := s.consulted, next := [] }

variable {affected : List Tid} {base logged : List (Event Tid)}

theorem Rehashing.exists_ready
    {acc : Rehash Tid} (rehashing : rq.Rehashing affected base acc logged)
    (nonempty : acc.total ≠ []) :
    ∃ tid, tid ∈ rq.readyOf acc.total acc.next := by
  obtain ⟨tid, member, minimal⟩ := rq.acyclic.exists_minimal nonempty
  have isReady : ∀ dep ∈ rq.depends tid, dep ∉ acc.total :=
    fun dep step inTotal => minimal dep inTotal step
  exact ⟨tid, List.mem_filter.mpr
    ⟨rehashing.ready tid member isReady, by simpa using isReady⟩⟩

theorem rehashRound_eq {acc : Rehash Tid} {last : Option Tid}
    (stale : ∃ p ∈ last, rq.depends p ≠ []) :
    (rq.rehashRound last acc).s.events =
      ((rq.readyOf acc.total acc.next).map Event.rehashed).reverse ++
        (((rq.readyOf acc.total acc.next).map Event.getTaskhash).reverse ++
          acc.s.events) ∧
    (rq.rehashRound last acc).total =
      acc.total.filter (· ∉ rq.readyOf acc.total acc.next) ∧
    (rq.rehashRound last acc).next.Nodup ∧
    ∀ tid, tid ∈ (rq.rehashRound last acc).next ↔
      tid ∈ (rq.rehashRound last acc).total ∧
        ∃ dep ∈ rq.readyOf acc.total acc.next, dep ∈ rq.depends tid := by
  obtain ⟨isReady, isLogged⟩ :=
    @foldl_readyTasks _ _ rq last acc.total stale acc.s acc.next
  obtain ⟨events, total, nodup, mem_next⟩ := @foldl_rehashTask _ _ rq
    (rq.world.getUnihashes
      (acc.next.foldl (rq.readyTasks last acc.total) (acc.s, [])).1.consults)
    { acc with
      s := (acc.next.foldl (rq.readyTasks last acc.total)
        (acc.s, [])).1.consulted, next := [] }
    rfl (acc.next.foldl (rq.readyTasks last acc.total) (acc.s, [])).2
  rw [isReady] at total mem_next
  refine ⟨?_, total, nodup, mem_next⟩
  have names : (acc.next.foldl (rq.readyTasks last acc.total) (acc.s, [])).2.map
      (fun entry => Event.rehashed entry.1) =
      (rq.readyOf acc.total acc.next).map Event.rehashed := by
    rw [← isReady, List.map_map]
    rfl
  rw [names] at events
  exact events.trans (congrArg _ isLogged)

theorem Rehashing.round {acc : Rehash Tid} {last : Option Tid}
    (rehashing : rq.Rehashing affected base acc logged)
    (stale : ∃ p ∈ last, rq.depends p ≠ []) :
    rq.Rehashing affected base (rq.rehashRound last acc)
      (((rq.readyOf acc.total acc.next).map Event.rehashed).reverse ++
        (((rq.readyOf acc.total acc.next).map Event.getTaskhash).reverse ++
          logged)) := by
  obtain ⟨events, total, nextNodup, mem_next⟩ :=
    @rehashRound_eq _ _ rq acc last stale
  have inNext : ∀ tid ∈ rq.readyOf acc.total acc.next, tid ∈ acc.next ∧
      ∀ dep ∈ rq.depends tid, dep ∉ acc.total := by
    intro tid member
    simpa using List.mem_filter.mp member
  have mem_total : ∀ tid, tid ∈ (rq.rehashRound last acc).total ↔
      tid ∈ acc.total ∧ tid ∉ rq.readyOf acc.total acc.next := by
    intro tid
    rw [total, List.mem_filter, decide_eq_true_eq]
  constructor
  · rw [events, rehashing.events]
    simp
  · rw [total]
    exact rehashing.nodup.filter _
  · exact fun tid member => rehashing.total tid ((mem_total tid).mp member).1
  · exact nextNodup
  · exact fun tid member => ((mem_next tid).mp member).1
  · intro tid member isReady
    obtain ⟨inTotal, notReady⟩ := (mem_total tid).mp member
    refine (mem_next tid).mpr ⟨member, ?_⟩
    -- a dependency of the task has been left until this round
    have waited : ∃ dep ∈ rq.depends tid, dep ∈ acc.total := by
      by_contra free
      push Not at free
      exact notReady (List.mem_filter.mpr
        ⟨rehashing.ready tid inTotal free, by simpa using free⟩)
    obtain ⟨dep, step, inside⟩ := waited
    have gone := isReady dep step
    rw [mem_total] at gone
    exact ⟨dep, by simpa [inside] using gone, step⟩
  · intro tid
    have noRehashed :
        (((rq.readyOf acc.total acc.next).map Event.rehashed).reverse).count
        (.getTaskhash tid) = 0 := by
      rw [List.count_eq_zero]
      simp
    have taken :
        (((rq.readyOf acc.total acc.next).map Event.getTaskhash).reverse).count
        (.getTaskhash tid) = if tid ∈ rq.readyOf acc.total acc.next then 1
                             else 0 := by
      have injective : Function.Injective (Event.getTaskhash : Tid →
          Event Tid) :=
        fun first second same => by injection same
      rw [List.count_reverse, List.count_map_of_injective _ _ injective]
      exact (rehashing.nextNodup.filter _).count
    rw [List.count_append, List.count_append, noRehashed, taken,
      rehashing.hashed, Nat.zero_add]
    by_cases isReady : tid ∈ rq.readyOf acc.total acc.next
    · have inTotal := rehashing.next tid (inNext tid isReady).1
      have isAffected := rehashing.total tid inTotal
      simp [isReady, inTotal, isAffected, mem_total]
    · simp [isReady, mem_total]
  · intro tid isAffected gone
    rw [mem_total, not_and_not_right] at gone
    by_cases left : tid ∈ acc.total
    · apply List.mem_append_left
      rw [List.mem_reverse]
      exact List.mem_map_of_mem (gone left)
    · exact List.mem_append_right _
        (List.mem_append_right _ (rehashing.given tid isAffected left))
  · intro tid earlier suffix dep step isAffected
    rcases suffix_append_cases suffix with behind | ⟨inRehashed, _⟩
    · rcases suffix_append_cases behind with old | ⟨inReady, older⟩
      · exact rehashing.order tid earlier old dep step isAffected
      · have isReady : tid ∈ rq.readyOf acc.total acc.next := by
          simpa using inReady
        have gone := (inNext tid isReady).2 dep step
        exact older.subset (rehashing.given dep isAffected gone)
    · simp at inRehashed

theorem Rehashing.rehash
    {acc : Rehash Tid} {last : Option Tid}
    (rehashing : rq.Rehashing affected base acc logged)
    (stale : acc.next ≠ [] → ∃ p ∈ last, rq.depends p ≠ []) {fuel : ℕ}
    (enough : acc.total.length < fuel) :
    ∃ more, rq.Rehashing affected base (rq.rehash last fuel acc) more ∧
      (rq.rehash last fuel acc).total = [] ∧
        (rq.rehash last fuel acc).next = [] := by
  induction fuel generalizing acc logged with
  | zero => omega
  | succ fuel induction =>
      rw [Prepared.rehash]
      split_ifs with ends
      · refine ⟨logged, rehashing, ?_, ends⟩
        by_contra left
        obtain ⟨tid, isReady⟩ := rehashing.exists_ready left
        have inNext := (List.mem_filter.mp isReady).1
        rw [ends] at inNext
        cases inNext
      · have isStale := stale ends
        obtain ⟨tid, member⟩ := List.exists_mem_of_ne_nil _ ends
        obtain ⟨ready, isReady⟩ := rehashing.exists_ready
          (List.ne_nil_of_mem (rehashing.next tid member))
        have shorter : (rq.rehashRound last acc).total.length <
            acc.total.length := by
          rw [(rehashRound_eq isStale).2.1,
            List.length_filter_lt_length_iff_exists]
          exact ⟨ready,
            rehashing.next ready
              (List.mem_filter.mp isReady).1, by simpa using isReady⟩
        have fewer : (rq.rehashRound last acc).total.length < fuel := by omega
        exact induction (rehashing.round isStale) (fun _ => isStale) fewer

/-- The rehash loop ends with nothing left.  It asks for the task hash of each
task that depends on a changed one once, of no other task, and of each only when
its affected dependencies have their new unihash. -/
theorem rehash_order (rq : Prepared Tid) (s : RunQueueExecute Tid)
    (toprocess : List Tid) :
    (rq.rehashFrom s toprocess).total = [] ∧
      (rq.rehashFrom s toprocess).next = [] ∧
    ∃ logged, (rq.rehashFrom s toprocess).s.events = logged ++ s.events ∧
      (∀ tid, (∃ p ∈ toprocess,
        Relation.TransGen (fun dep tid => dep ∈ rq.depends tid) p tid) →
        logged.count (.getTaskhash tid) = 1) ∧
      (∀ tid, (¬ ∃ p ∈ toprocess,
          Relation.TransGen (fun dep tid => dep ∈ rq.depends tid) p tid) →
        logged.count (.getTaskhash tid) = 0) ∧
      ∀ tid earlier, .getTaskhash tid :: earlier <:+ logged →
        ∀ dep ∈ rq.depends tid,
        (∃ p ∈ toprocess,
          Relation.TransGen (fun dep tid => dep ∈ rq.depends tid) p dep) →
        .rehashed dep ∈ earlier := by
  simp only [← mem_affected]
  have start : rq.Rehashing (rq.affected toprocess) s.events
      { s := s
        total := rq.affected toprocess
        next := (rq.affected toprocess).filter fun p =>
          ∀ dep ∈ rq.depends p, dep ∉ rq.affected toprocess
        changed := [] } [] := by
    constructor
    · rfl
    · exact nodup_affected
    · exact fun _ member => member
    · exact nodup_affected.filter _
    · exact fun tid member => (List.mem_filter.mp member).1
    · exact fun tid member isReady =>
        List.mem_filter.mpr ⟨member, by simpa using isReady⟩
    · simp
    · exact fun tid isAffected gone => absurd isAffected gone
    · simp
  have stale : (rq.affected toprocess).filter (fun p =>
      ∀ dep ∈ rq.depends p, dep ∉ rq.affected toprocess) ≠ [] →
      ∃ p ∈ (rq.affected toprocess).getLast?, rq.depends p ≠ [] := by
    intro nonempty
    obtain ⟨tid, member⟩ := List.exists_mem_of_ne_nil _ nonempty
    have some := List.ne_nil_of_mem (List.mem_filter.mp member).1
    refine ⟨(rq.affected toprocess).getLast some,
      List.getLast?_eq_some_getLast some, ?_⟩
    obtain ⟨p, _, path⟩ := mem_affected.mp (List.getLast_mem some)
    obtain ⟨dep, _, step⟩ := Relation.TransGen.tail'_iff.mp path
    exact List.ne_nil_of_mem step
  obtain ⟨logged, rehashing, isEmpty, ends⟩ :=
    start.rehash stale (Nat.lt_succ_self _)
  have isEnd : (rq.rehashFrom s toprocess).total = [] := isEmpty
  refine ⟨isEmpty, ends, logged, rehashing.events, ?_, ?_, rehashing.order⟩
  · intro tid isAffected
    have once := rehashing.hashed tid
    rw [isEmpty] at once
    simpa [isAffected] using once
  · intro tid unaffected
    have never := rehashing.hashed tid
    simpa [unaffected] using never

end Prepared

end Nvbmc.RunQueue
