import Mathlib.Data.List.Nodup
import Nvbmc.HashServ.Database

/-!
# Garbage collection

A collection begins when its mark becomes the current one and ends with a sweep
or with another mark.  `Collection` is what a history says about the current
one: the rows to be kept, which a `gc_mark` call of the collection has matched
or which were inserted since it began, and the rows that carried the mark
already when it began and that no call has matched.

The rows only carry a mark.  It does not tell the collections with the same
mark apart, so that a sweep keeps the rows of both kinds.
-/

namespace Nvbmc.HashServ

open Nvbmc.Library

inductive Operation where
  | insertUnihash (method taskhash unihash : Text)
  | insertOuthash (row : OuthashRow)
  | remove (condition : Condition)
  | gcMark (mark : Text) (condition : Condition)
  | gcSweep (mark : Text)

def Database.perform (db : Database) : Operation → Database
  | .insertUnihash method taskhash unihash =>
      db.insertUnihash method taskhash unihash
  | .insertOuthash row => db.insertOuthash row
  | .remove condition => db.remove condition
  | .gcMark mark condition => db.markRows mark condition
  | .gcSweep mark => (db.handleGcSweep mark).getD db

/-- The current collection, by the keys of its rows. -/
structure Collection where
  kept : List ℕ
  carried : List ℕ

def Database.matched (db : Database) (condition : UnihashRow → Bool) : List ℕ :=
  (db.unihashes.filter condition).map (·.id)

def Collection.perform (collection : Collection) (db : Database) :
    Operation → Collection
  | .insertUnihash method taskhash _ =>
      match db.findUnihash method taskhash with
      | some _ => collection
      | none => { collection with kept := collection.kept ++ [db.nextId] }
  | .gcMark mark condition =>
      let matched := db.matched condition.unihashRow
      if db.gcMark = some mark then
        ⟨collection.kept ++ matched, collection.carried.filter (· ∉ matched)⟩
      else
        ⟨matched, db.matched fun row =>
          row.gcMark = mark && !condition.unihashRow row⟩
  | _ => collection

/-- The database and the current collection after a history. -/
def runHistory (history : List Operation) : Database × Collection :=
  history.foldl
    (fun state operation =>
      (state.1.perform operation, state.2.perform state.1 operation))
    (.empty, ⟨[], []⟩)

/-- What a sweep must do: delete the rows that are not to be kept, or nothing
when it is refused. -/
structure ExactSweep (db : Database) (collection : Collection) (mark : Text) :
    Prop where
  deletes : ∀ after, db.handleGcSweep mark = some after →
    after.outhashes = db.outhashes ∧ ∀ row, row ∈ after.unihashes ↔
      row ∈ db.unihashes ∧ row.id ∈ collection.kept
  refused : db.handleGcSweep mark = none → db.perform (.gcSweep mark) = db

/-- What the marks of the rows say about the current collection. -/
structure Accounted (db : Database) (collection : Collection) : Prop where
  distinct : (db.unihashes.map (·.id)).Nodup
  old : ∀ row ∈ db.unihashes, row.id < db.nextId
  oldCarried : ∀ key ∈ collection.carried, key < db.nextId
  marked : ∀ mark, db.gcMark = some mark → ∀ row ∈ db.unihashes,
    (row.gcMark = mark ↔ row.id ∈ collection.kept ∨ row.id ∈ collection.carried)
  apart : ∀ mark, db.gcMark = some mark → ∀ row ∈ db.unihashes,
    row.id ∈ collection.carried → row.id ∉ collection.kept

namespace Accounted

variable {db : Database} {collection : Collection}

theorem mem_matched (accounted : Accounted db collection) {row : UnihashRow}
    (member : row ∈ db.unihashes) (condition : UnihashRow → Bool) :
    row.id ∈ db.matched condition ↔ condition row := by
  simp only [Database.matched, List.mem_map, List.mem_filter]
  constructor
  · rintro ⟨other, ⟨otherMember, holds⟩, same⟩
    have equal := List.inj_on_of_nodup_map accounted.distinct otherMember member
      same
    exact equal ▸ holds
  · exact fun holds => ⟨row, ⟨member, holds⟩, rfl⟩

theorem matched_lt (accounted : Accounted db collection)
    {condition : UnihashRow → Bool} {key : ℕ}
    (member : key ∈ db.matched condition) : key < db.nextId := by
  obtain ⟨row, among, rfl⟩ := List.mem_map.mp member
  exact accounted.old row (List.mem_filter.mp among).1

theorem empty : Accounted .empty ⟨[], []⟩ where
  distinct := by simp [Database.empty]
  old := by simp [Database.empty]
  oldCarried := by simp
  marked := by simp [Database.empty]
  apart := by simp [Database.empty]

variable (accounted : Accounted db collection)
include accounted

theorem insertUnihash (method taskhash unihash : Text) :
    Accounted (db.perform (.insertUnihash method taskhash unihash))
      (collection.perform db (.insertUnihash method taskhash unihash)) := by
  cases found : db.findUnihash method taskhash with
  | some row =>
      simpa only [Database.perform, Database.insertUnihash, Collection.perform,
        found] using accounted
  | none =>
      simp only [Database.perform, Database.insertUnihash, Collection.perform,
        found]
      constructor
      · rw [List.map_append, List.nodup_append]
        refine ⟨accounted.distinct, by simp, ?_⟩
        simp only [List.mem_map, List.map_cons, List.map_nil,
          List.mem_singleton]
        rintro key ⟨row, member, rfl⟩ _ rfl
        exact (accounted.old row member).ne
      · intro row member
        obtain member | new := List.mem_append.mp member
        · have := accounted.old row member
          simp only
          omega
        · rw [List.mem_singleton.mp new]
          simp
      · intro key member
        have := accounted.oldCarried key member
        simp only
        omega
      · intro mark current row member
        simp only at current
        obtain member | new := List.mem_append.mp member
        · have notNew := (accounted.old row member).ne
          simp [accounted.marked mark current row member, notNew]
        · rw [List.mem_singleton.mp new]
          simp [current]
      · intro mark current row member carried kept
        have older := accounted.oldCarried _ carried
        obtain member | new := List.mem_append.mp member
        · have notNew := (accounted.old row member).ne
          apply accounted.apart mark current row member carried
          simpa [notNew] using kept
        · rw [List.mem_singleton.mp new] at older
          exact lt_irrefl _ older

theorem insertOuthash (row : OuthashRow) :
    Accounted (db.perform (.insertOuthash row)) collection := by
  simp only [Database.perform, Database.insertOuthash]
  split
  · exact accounted
  · exact ⟨accounted.distinct, accounted.old, accounted.oldCarried,
      accounted.marked, accounted.apart⟩

theorem fewer {after : Database} (keep : UnihashRow → Bool)
    (rows : after.unihashes = db.unihashes.filter keep)
    (sameNext : after.nextId = db.nextId)
    (mark : ∀ mark, after.gcMark = some mark → db.gcMark = some mark) :
    Accounted after collection := by
  have among : ∀ row ∈ after.unihashes, row ∈ db.unihashes := by
    intro row member
    rw [rows] at member
    exact (List.mem_filter.mp member).1
  constructor
  · rw [rows]
    exact accounted.distinct.sublist (List.filter_sublist.map _)
  · intro row member
    exact sameNext ▸ accounted.old row (among row member)
  · exact fun key member => sameNext ▸ accounted.oldCarried key member
  · exact fun name current row member =>
      accounted.marked name (mark name current) row (among row member)
  · exact fun name current row member =>
      accounted.apart name (mark name current) row (among row member)

theorem remove (condition : Condition) :
    Accounted (db.perform (.remove condition)) collection :=
  accounted.fewer _ rfl rfl fun _ => id

theorem gcSweep (mark : Text) :
    Accounted (db.perform (.gcSweep mark)) collection := by
  simp only [Database.perform, Database.handleGcSweep]
  cases current : db.gcMark with
  | none => exact accounted
  | some currentMark =>
      simp only
      split
      · exact accounted
      · apply accounted.fewer (·.gcMark = currentMark)
        · simp [Database.sweep, current]
        · rfl
        · simp [Database.sweep]

omit accounted

theorem mem_marked {mark : Text} {condition : Condition} {after : UnihashRow}
    (member : after ∈ (db.markRows mark condition).unihashes) :
    ∃ row ∈ db.unihashes, after.id = row.id ∧
      (after.gcMark = mark ↔ condition.unihashRow row ∨ row.gcMark = mark) := by
  obtain ⟨row, among, rfl⟩ := List.mem_map.mp member
  refine ⟨row, among, ?_⟩
  by_cases holds : condition.unihashRow row <;> simp [holds]

theorem gcMark (accounted : Accounted db collection) (mark : Text)
    (condition : Condition) :
    Accounted (db.perform (.gcMark mark condition))
      (collection.perform db (.gcMark mark condition)) := by
  have sameKeys : (db.markRows mark condition).unihashes.map (·.id) =
      db.unihashes.map (·.id) := by
    simp only [Database.markRows, List.map_map]
    apply List.map_congr_left
    intro row _
    by_cases holds : condition.unihashRow row <;> simp [holds]
  have mark_eq {name : Text}
      (current : (db.perform (.gcMark mark condition)).gcMark = some name) :
      mark = name := Option.some.inj current
  constructor
  · exact sameKeys ▸ accounted.distinct
  · intro after member
    obtain ⟨row, among, sameKey, -⟩ := mem_marked member
    exact sameKey ▸ accounted.old row among
  · intro key member
    simp only [Collection.perform] at member
    split at member
    · exact accounted.oldCarried key (List.mem_filter.mp member).1
    · exact accounted.matched_lt member
  · intro name current after member
    obtain rfl := mark_eq current
    obtain ⟨row, among, sameKey, marks⟩ := mem_marked member
    have matched := accounted.mem_matched among condition.unihashRow
    simp only [Collection.perform]
    split
    · have before := accounted.marked mark ‹_› row among
      rw [marks, sameKey, before]
      simp only [List.mem_append, List.mem_filter, matched]
      grind
    · rw [marks, sameKey, matched, accounted.mem_matched among]
      grind
  · intro name current after member
    obtain rfl := mark_eq current
    obtain ⟨row, among, sameKey, -⟩ := mem_marked member
    have matched := accounted.mem_matched among condition.unihashRow
    simp only [Collection.perform]
    split
    · have before := accounted.apart mark ‹_› row among
      rw [sameKey]
      simp only [List.mem_append, List.mem_filter, matched]
      grind
    · rw [sameKey, matched, accounted.mem_matched among]
      grind

theorem perform (accounted : Accounted db collection) (operation : Operation) :
    Accounted (db.perform operation) (collection.perform db operation) := by
  cases operation with
  | insertUnihash method taskhash unihash =>
      exact accounted.insertUnihash method taskhash unihash
  | insertOuthash row => exact accounted.insertOuthash row
  | remove condition => exact accounted.remove condition
  | gcMark mark condition => exact accounted.gcMark mark condition
  | gcSweep mark => exact accounted.gcSweep mark

theorem runHistory (history : List Operation) :
    Accounted (runHistory history).1 (runHistory history).2 := by
  induction history using List.reverseRecOn with
  | nil => exact .empty
  | append_singleton history operation previous =>
      rw [HashServ.runHistory, List.foldl_append]
      exact previous.perform operation

end Accounted

theorem Database.handleGcSweep_eq_some {db after : Database} {mark : Text} :
    db.handleGcSweep mark = some after ↔
      mark ≠ [] ∧ db.gcMark = some mark ∧ after = db.sweep := by
  simp only [Database.handleGcSweep]
  cases db.gcMark with
  | none => simp
  | some currentMark =>
      simp only [Option.some.injEq]
      split
      · constructor
        · simp
        · rintro ⟨named, rfl, -⟩
          simp_all
      · have same : mark = currentMark := by simp_all
        subst same
        simp_all [eq_comm]

/-- A sweep is exact if and only if it is refused or no row is left that only
carried the mark into the collection. -/
theorem exact_sweep_iff (history : List Operation) (mark : Text) :
    ExactSweep (runHistory history).1 (runHistory history).2 mark ↔
      (mark ≠ [] → (runHistory history).1.gcMark = some mark →
        ∀ row ∈ (runHistory history).1.unihashes,
          row.id ∉ (runHistory history).2.carried) := by
  have accounted := Accounted.runHistory history
  generalize runHistory history = state at accounted ⊢
  obtain ⟨db, collection⟩ := state
  simp only at accounted ⊢
  constructor
  · intro exactly named current row member carried
    have swept := Database.handleGcSweep_eq_some.mpr ⟨named, current, rfl⟩
    have marks := (accounted.marked mark current row member).mpr (.inr carried)
    have stays : row ∈ db.sweep.unihashes := by
      simpa [Database.sweep, current, marks] using member
    have kept := ((exactly.deletes _ swept).2 row).mp stays
    exact accounted.apart mark current row member carried kept.2
  · intro clean
    constructor
    · intro after swept
      obtain ⟨named, current, rfl⟩ := Database.handleGcSweep_eq_some.mp swept
      refine ⟨rfl, fun row => ?_⟩
      simp only [Database.sweep, current, List.mem_filter, decide_eq_true_eq]
      apply and_congr_right
      intro member
      rw [accounted.marked mark current row member]
      simp [clean named current row member]
    · intro refused
      simp [Database.perform, refused]

/-- A mark is used again after its sweep: the second row is neither matched
nor inserted in the second collection, and stays. -/
def reusedMark : List Operation :=
  let noInfo : OuthashInfo := ⟨none, none, none, none, none, none⟩
  let onTask (taskhash : Text) : Condition :=
    ⟨none, some taskhash, none, none, none, none, noInfo⟩
  [.insertUnihash "m".toList "a".toList "a".toList,
    .insertUnihash "m".toList "b".toList "b".toList,
    .gcMark "mark".toList (onTask "a".toList),
    .gcMark "mark".toList (onTask "b".toList),
    .gcSweep "mark".toList,
    .gcMark "mark".toList (onTask "a".toList)]

theorem not_exact_sweep_reused :
    ¬ ∀ (history : List Operation) (mark : Text),
      ExactSweep (runHistory history).1 (runHistory history).2 mark := by
  intro claimed
  obtain ⟨deletes, -⟩ := claimed reusedMark "mark".toList
  have swept := (deletes _ rfl).2
    ⟨2, "m".toList, "b".toList, "b".toList, "mark".toList⟩
  revert swept
  decide

end Nvbmc.HashServ
