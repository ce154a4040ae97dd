import Nvbmc.HashServ.Server

/-!
# The tasks that share an output hash

`getEquivalentForOuthash` gives a task the unihash of the oldest task with the
same output hash.  `Database.shared` is that unihash for the whole group.  A row
that joins a group, because a task of the group is given a unihash or because a
task with a unihash is reported, leaves it as it is if the row is newer than the
oldest row of the group or if both have the same unihash.
-/

namespace Nvbmc.HashServ

open Nvbmc.Library

namespace Database

theorem older_asymm (x y : OuthashRow × Text) (less : older x y) :
    ¬ older y x := by
  simp only [older] at less ⊢
  cases created : x.1.created with
  | none => cases other : y.1.created <;> simp_all
  | some first =>
      cases other : y.1.created with
      | none => simp_all
      | some second =>
          simp only [created, other, decide_eq_true_eq] at less ⊢
          exact less.asymm

theorem older_negTrans (x y z : OuthashRow × Text) (first : ¬ older x y)
    (second : ¬ older y z) : ¬ older x z := by
  simp only [older] at first second ⊢
  cases createdX : x.1.created with
  | none =>
      cases createdY : y.1.created <;> cases createdZ : z.1.created <;>
        simp_all
  | some createdFirst =>
      cases createdZ : z.1.created with
      | none => simp
      | some createdThird =>
          cases createdY : y.1.created with
          | none => simp_all
          | some createdSecond =>
              simp only [createdX, createdY, createdZ, decide_eq_true_eq,
                not_lt] at first second ⊢
              exact second.trans first

section Joining

variable (db : Database)

def withUnihash (row : OuthashRow) : Option (OuthashRow × Text) :=
  (db.unihash row.task).map fun unihash => (row, unihash)

variable {db} {row : OuthashRow}

theorem withUnihash_eq_some {pair : OuthashRow × Text} :
    db.withUnihash row = some pair ↔
      pair.1 = row ∧ db.unihash row.task = some pair.2 := by
  rw [withUnihash, Option.map_eq_some_iff]
  constructor
  · rintro ⟨unihash, found, rfl⟩
    exact ⟨rfl, found⟩
  · rintro ⟨rfl, found⟩
    exact ⟨pair.2, found, rfl⟩

theorem withUnihash_eq_none :
    db.withUnihash row = none ↔ db.unihash row.task = none := by
  rw [withUnihash, Option.map_eq_none_iff]

theorem joined_eq (condition : OuthashRow → Bool) :
    db.joined condition =
      (db.outhashes.filter condition).filterMap db.withUnihash := rfl

/-- Rows of one unihash join; nothing else changes. -/
structure Joining (db after : Database) (unihash : Text)
    (joins : OuthashRow → Prop) : Prop where
  best : ∀ {condition best}, after.oldest condition = some best →
    (condition best.1 ∧ joins best.1 ∧ best.2 = unihash) ∨
      db.oldest condition = some best
  stays : ∀ {condition best}, db.oldest condition = some best →
    (∀ row, joins row → condition row → older best (row, unihash)) →
    after.oldest condition = some best
  nonempty : ∀ {condition best}, db.oldest condition = some best →
    ∃ best, after.oldest condition = some best

theorem Joining.intro {after : Database} {unihash : Text}
    {joins : OuthashRow → Prop} (base : (OuthashRow → Bool) → List OuthashRow)
    (before : OuthashRow → Option (OuthashRow × Text))
    (old : ∀ condition, db.joined condition = (base condition).filterMap before)
    (new : ∀ condition, after.joined condition =
      (base condition).filterMap after.withUnihash)
    (kept : ∀ row pair, before row = some pair →
      after.withUnihash row = some pair)
    (joined : ∀ condition, ∀ row ∈ base condition, ∀ pair,
      before row = none → after.withUnihash row = some pair →
      condition row ∧ joins row ∧ pair.2 = unihash) :
    Joining db after unihash joins where
  best := by
    intro condition best found
    rw [oldest, new] at found
    obtain ⟨row, member, notBefore, isBest⟩ | same :=
      extremum_join older_asymm older_negTrans kept found
    · left
      rw [(withUnihash_eq_some.mp isBest).1]
      exact joined condition row member best notBefore isBest
    · right
      rw [oldest, old, same]
  stays := by
    intro condition best found newer
    rw [oldest, old] at found
    rw [oldest, new]
    apply extremum_join_worse older_asymm older_negTrans kept found
    intro row member pair notBefore isPair
    obtain ⟨meets, joinsRow, sameUnihash⟩ :=
      joined condition row member pair notBefore isPair
    have equal : pair = (row, unihash) :=
      Prod.ext (withUnihash_eq_some.mp isPair).1 sameUnihash
    rw [equal]
    exact newer row joinsRow meets
  nonempty := by
    intro condition best found
    rw [oldest, old] at found
    obtain ⟨row, member, isBest⟩ := List.mem_filterMap.mp (extremum_mem found)
    have among : best ∈ after.joined condition := by
      rw [new]
      exact List.mem_filterMap.mpr ⟨row, member, kept row best isBest⟩
    cases none_left : after.oldest condition with
    | none =>
        rw [oldest, extremum_eq_none] at none_left
        rw [none_left] at among
        cases among
    | some other => exact ⟨other, rfl⟩

theorem joining_addUnihash {task : Task} (unihash : Text)
    (missing : db.unihash task = none) :
    Joining db (db.addUnihash task unihash) unihash fun row =>
      row ∈ db.outhashes ∧ row.task = task := by
  have given : (db.addUnihash task unihash).unihash task = some unihash := by
    rw [unihash_addUnihash_self, missing]
    rfl
  apply Joining.intro (db.outhashes.filter ·) db.withUnihash
  · exact joined_eq
  · intro condition
    rw [joined_eq, outhashes_addUnihash]
  · intro row pair found
    rw [withUnihash_eq_some] at found ⊢
    have different : row.task ≠ task := by
      intro same
      rw [same, missing] at found
      cases found.2
    rwa [unihash_addUnihash_of_ne unihash different]
  · intro condition row member pair notBefore found
    rw [withUnihash_eq_none] at notBefore
    obtain ⟨among, meets⟩ := List.mem_filter.mp member
    have same : row.task = task := by
      by_contra different
      have after := (withUnihash_eq_some.mp found).2
      rw [unihash_addUnihash_of_ne unihash different, notBefore] at after
      cases after
    rw [withUnihash_eq_some, same, given] at found
    exact ⟨meets, ⟨among, same⟩, (Option.some.inj found.2).symm⟩

theorem hasOuthash_iff {method taskhash outhash : Text} :
    db.hasOuthash method taskhash outhash ↔ ∃ row ∈ db.outhashes,
      row.method = method ∧ row.taskhash = taskhash ∧
        row.outhash = outhash := by
  simp [hasOuthash]

theorem joining_insertOuthash {unihash : Text}
    (new : ¬ db.hasOuthash row.method row.taskhash row.outhash)
    (known : ∀ known ∈ db.unihash row.task, known = unihash) :
    Joining db (db.insertOuthash row) unihash fun other =>
      other = row ∧ db.unihash row.task = some unihash := by
  have fresh : ∀ other ∈ db.outhashes, other ≠ row := by
    rintro other member rfl
    exact new (hasOuthash_iff.mpr ⟨other, member, rfl, rfl, rfl⟩)
  have same : (db.insertOuthash row).withUnihash = db.withUnihash := by
    funext other
    simp only [withUnihash, unihash_insertOuthash]
  have rows : (db.insertOuthash row).outhashes = db.outhashes ++ [row] := by
    simp [insertOuthash, new]
  apply Joining.intro ((db.outhashes ++ [row]).filter ·) fun other =>
    if other = row then none else db.withUnihash other
  · intro condition
    rw [joined_eq, List.filter_append, List.filterMap_append]
    have last : ([row].filter condition).filterMap (fun other =>
        if other = row then none else db.withUnihash other) = [] := by
      cases meets : condition row <;> simp [meets]
    rw [last, List.append_nil]
    apply List.filterMap_congr
    intro other member
    rw [if_neg (fresh other (List.mem_filter.mp member).1)]
  · intro condition
    rw [joined_eq, rows]
  · intro other pair found
    split_ifs at found
    rwa [same]
  · intro condition other member pair notBefore found
    rw [same, withUnihash_eq_some] at found
    have isRow : other = row := by
      by_contra different
      rw [if_neg different, withUnihash_eq_none] at notBefore
      rw [notBefore] at found
      cases found.2
    subst isRow
    have same := known pair.2 found.2
    exact ⟨(List.mem_filter.mp member).2, ⟨rfl, same ▸ found.2⟩, same⟩

end Joining

section Shared

variable (db : Database)

def group (method outhash : Text) (row : OuthashRow) : Bool :=
  row.method = method ∧ row.outhash = outhash

def shared (method outhash : Text) : Option Text :=
  (db.oldest (group method outhash)).map (·.2)

/-- The row `getEquivalentForOuthash` takes its unihash from. -/
def oldestEquivalent (method outhash taskhash : Text) :
    Option (OuthashRow × Text) :=
  db.oldest fun row => row.method = method ∧ row.outhash = outhash ∧
    row.taskhash ≠ taskhash

def Reported (task : Task) (outhash : Text) : Prop :=
  ∃ row ∈ db.outhashes, row.task = task ∧ row.outhash = outhash

variable {db}

theorem hasOuthash_iff_reported {task : Task} {outhash : Text} :
    db.hasOuthash task.method task.taskhash outhash ↔
      db.Reported task outhash := by
  simp only [hasOuthash_iff, Reported]
  apply exists_congr
  intro row
  cases task
  simp [OuthashRow.task, and_assoc]

theorem reported_insertOuthash (row : OuthashRow) :
    (db.insertOuthash row).Reported row.task row.outhash := by
  rw [insertOuthash]
  split_ifs with old
  · exact (@hasOuthash_iff_reported db row.task row.outhash).mp old
  · exact ⟨row, List.mem_append_right _ (List.mem_singleton_self _), rfl, rfl⟩

variable {row : OuthashRow}

theorem getEquivalentForOuthash_eq (method outhash taskhash : Text) :
    db.getEquivalentForOuthash method outhash taskhash =
      (db.oldestEquivalent method outhash taskhash).map (·.2) := rfl

/-- As long as the task itself is not in the join, the oldest equivalent row is
the oldest row of the group. -/
theorem oldestEquivalent_eq {task : Task} {outhash : Text}
    (apart : db.Reported task outhash → db.unihash task = none) :
    db.oldestEquivalent task.method outhash task.taskhash =
      db.oldest (group task.method outhash) := by
  rw [oldestEquivalent, oldest, oldest, joined_eq, joined_eq,
    List.filterMap_filter, List.filterMap_filter]
  congr 1
  apply List.filterMap_congr
  intro row member
  by_cases grouped : group task.method outhash row
  · have ⟨methods, outhashes⟩ : row.method = task.method ∧
        row.outhash = outhash := by simpa [group] using grouped
    by_cases same : row.taskhash = task.taskhash
    · have isTask : row.task = task := by
        simp [OuthashRow.task, methods, same]
      have none_joined := withUnihash_eq_none.mpr
        (isTask ▸ apart ⟨row, member, isTask, outhashes⟩)
      simp [none_joined]
    · simp [grouped, methods, outhashes, same]
  · have apart' : ¬ (row.method = task.method ∧ row.outhash = outhash) := by
      simpa [group] using grouped
    rw [if_neg grouped, if_neg]
    simp only [decide_eq_true_eq]
    tauto

theorem oldest_of_joined {condition : OuthashRow → Bool}
    {unihash : Text} (member : row ∈ db.outhashes) (meets : condition row)
    (known : db.unihash row.task = some unihash) :
    ∃ best, db.oldest condition = some best := by
  have among : (row, unihash) ∈ db.joined condition := by
    rw [joined_eq]
    exact List.mem_filterMap.mpr ⟨row, List.mem_filter.mpr ⟨member, meets⟩,
      withUnihash_eq_some.mpr ⟨rfl, known⟩⟩
  cases found : db.oldest condition with
  | none =>
      rw [oldest, extremum_eq_none] at found
      rw [found] at among
      cases among
  | some best => exact ⟨best, rfl⟩

variable {after : Database} {unihash : Text} {joins : OuthashRow → Prop}

/-- A group keeps its unihash when every row that joins it is newer than its
oldest row or has the same unihash. -/
theorem Joining.shared (joining : Joining db after unihash joins)
    {method outhash sharedUnihash : Text}
    (suits : ∀ row, joins row → group method outhash row → ∀ best,
      db.oldest (group method outhash) = some best →
      ¬ older best (row, unihash) → best.2 = unihash)
    (before : db.shared method outhash = some sharedUnihash) :
    after.shared method outhash = some sharedUnihash := by
  obtain ⟨best, found, rfl⟩ := Option.map_eq_some_iff.mp before
  rw [Database.shared]
  by_cases newer : ∀ row, joins row → group method outhash row →
      older best (row, unihash)
  · rw [joining.stays found newer]
    rfl
  · push Not at newer
    obtain ⟨row, joinsRow, grouped, notNewer⟩ := newer
    have same := suits row joinsRow grouped best found (by simpa using notNewer)
    obtain ⟨other, foundAfter⟩ := joining.nonempty found
    rw [foundAfter]
    obtain ⟨-, -, given⟩ | old := joining.best foundAfter
    · simp [given, same]
    · cases found.symm.trans old
      rfl

/-- A group that a row has joined has the unihash of the row, if it agrees with
the group. -/
theorem Joining.shared_of_joins (joining : Joining db after unihash joins)
    {method outhash : Text} (grouped : group method outhash row)
    (member : row ∈ after.outhashes)
    (known : after.unihash row.task = some unihash)
    (agrees : ∀ best, db.oldest (group method outhash) = some best →
      best.2 = unihash) :
    after.shared method outhash = some unihash := by
  obtain ⟨best, found⟩ := oldest_of_joined member grouped known
  rw [Database.shared, found]
  obtain ⟨-, -, given⟩ | old := joining.best found
  · simp [given]
  · simp [agrees best old]

end Shared

end Database

end Nvbmc.HashServ
