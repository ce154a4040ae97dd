import Nvbmc.Library.Runs
import Nvbmc.HashServ.Groups

/-!
# Tasks with one output hash get one unihash

A report inserts its outhash row, looks for an equivalent task and inserts a
unihash, with waits in between.  The unihash of an equivalent task is always the
right one.  A unihash that the report brings itself or the upstream server
answers is right as long as no equivalent task has another one when it is
inserted; `Watched.Unhindered` asks this of every insertion that puts a row into
the join of a group, unless the row is newer than the group and belongs to none
of the reports the statement is about.
-/

namespace Nvbmc.HashServ

open Nvbmc.Library

def Database.New (db : Database) (task : Task) : Prop :=
  db.unihash task = none ∧ ∀ row ∈ db.outhashes, row.task ≠ task

instance instDecidableNew (db : Database) (task : Task) :
    Decidable (db.New task) :=
  inferInstanceAs (Decidable (db.unihash task = none ∧
    ∀ row ∈ db.outhashes, row.task ≠ task))

/-- The server, and the reports whose task was new when they came. -/
structure Watched where
  server : State
  firsts : List (ℕ × ReportData)

namespace Watched

def db (watched : Watched) : Database :=
  watched.server.db

def firstsOf (server : State) : Action → List (ℕ × ReportData)
  | .request (.report data _ _) =>
      if server.db.New data.task then [(server.handlers.length, data)] else []
  | _ => []

def perform (watched : Watched) (action : Action) : Option Watched :=
  (watched.server.perform action).map fun server =>
    ⟨server, watched.firsts ++ firstsOf watched.server action⟩

def Step (watched : Watched) (action : Action) (next : Watched) : Prop :=
  watched.perform action = some next

structure Start (watched : Watched) : Prop where
  server : watched.server.Start
  none_yet : watched.firsts = []

variable (watched : Watched)

def IsFirst (task : Task) (outhash : Text) : Prop :=
  ∃ first ∈ watched.firsts, first.2.task = task ∧ first.2.outhash = outhash

/-- The row may join its group with the unihash: an oldest equivalent task has
the same one, or is older than the row, which is none of the first reports'. -/
def Suits (row : OuthashRow) (unihash : Text) : Prop :=
  ∀ best ∈ watched.db.oldestEquivalent row.method row.outhash row.taskhash,
    watched.IsFirst row.task row.outhash ∨
      ¬ Database.older best (row, unihash) → best.2 = unihash

/-- The task may be given the unihash; `found` is the output hash whose group
the unihash was found in. -/
def MayGive (task : Task) (unihash : Text) (found : Option Text) : Prop :=
  watched.db.unihash task = none → ∀ row ∈ watched.db.outhashes,
    row.task = task → found ≠ some row.outhash → watched.Suits row unihash

def MayInsert (row : OuthashRow) : Prop :=
  ¬ watched.db.hasOuthash row.method row.taskhash row.outhash →
    ∀ unihash ∈ watched.db.unihash row.task, watched.Suits row unihash

end Watched

/-- The output hash whose group the stage's unihash was found in. -/
def Stage.foundIn : Stage → Option Text
  | .insertEquivalent data _ => some data.outhash
  | _ => none

namespace Watched

variable (watched : Watched)

def Allows (stage : Stage) : Prop :=
  (∀ given ∈ stage.gives, watched.MayGive given.1 given.2 stage.foundIn) ∧
    ∀ row ∈ stage.inserts, watched.MayInsert row

/-- No rows are removed, and every insertion is allowed. -/
def Unhindered : Action → Prop
  | .run index =>
      ∀ stage ∈ watched.server.handlers[index]?, watched.Allows stage
  | .insertBackfill => ∀ given ∈ watched.server.worker.gives,
      watched.MayGive given.1 given.2 none
  | .gcSweep _ | .remove _ => False
  | _ => True

instance instDecidableSuits (row : OuthashRow) (unihash : Text) :
    Decidable (watched.Suits row unihash) :=
  inferInstanceAs (Decidable (∀ best ∈ watched.db.oldestEquivalent row.method
    row.outhash row.taskhash, (∃ first ∈ watched.firsts,
      first.2.task = row.task ∧ first.2.outhash = row.outhash) ∨
      ¬ Database.older best (row, unihash) → best.2 = unihash))

instance instDecidableMayGive (task : Task) (unihash : Text)
    (found : Option Text) : Decidable (watched.MayGive task unihash found) :=
  inferInstanceAs (Decidable (watched.db.unihash task = none →
    ∀ row ∈ watched.db.outhashes, row.task = task →
      found ≠ some row.outhash → watched.Suits row unihash))

instance instDecidableMayInsert (row : OuthashRow) :
    Decidable (watched.MayInsert row) :=
  inferInstanceAs (Decidable (
    ¬ watched.db.hasOuthash row.method row.taskhash row.outhash →
      ∀ unihash ∈ watched.db.unihash row.task, watched.Suits row unihash))

instance instDecidableAllows (stage : Stage) :
    Decidable (watched.Allows stage) :=
  inferInstanceAs (Decidable ((∀ given ∈ stage.gives,
      watched.MayGive given.1 given.2 stage.foundIn) ∧
    ∀ row ∈ stage.inserts, watched.MayInsert row))

instance instDecidableUnhindered :
    (action : Action) → Decidable (watched.Unhindered action)
  | .run index => inferInstanceAs (Decidable (∀ stage ∈
      watched.server.handlers[index]?, watched.Allows stage))
  | .insertBackfill => inferInstanceAs (Decidable (∀ given ∈
      watched.server.worker.gives, watched.MayGive given.1 given.2 none))
  | .gcSweep _ | .remove _ => isFalse id
  | .request _ | .answer _ _ | .fail _ | .takeBackfill | .answerBackfill _
  | .gcMark _ _ => isTrue trivial

end Watched

/-- What an insertion into the database keeps, and what it says about the
groups of the first reports. -/
structure Advances (first : Task → Text → Prop) (db after : Database) :
    Prop where
  unihash : ∀ {task unihash}, db.unihash task = some unihash →
    after.unihash task = some unihash
  reported : ∀ {task outhash}, db.Reported task outhash →
    after.Reported task outhash
  shared : ∀ {method outhash unihash},
    db.shared method outhash = some unihash →
    after.shared method outhash = some unihash
  settled : ∀ {task outhash unihash}, first task outhash →
    after.unihash task = some unihash → after.Reported task outhash →
    (db.unihash task = some unihash ∧ db.Reported task outhash) ∨
      after.shared task.method outhash = some unihash

namespace Advances

variable {first : Task → Text → Prop} {db : Database}

theorem refl : Advances first db db where
  unihash := id
  reported := id
  shared := id
  settled := fun _ known reported => .inl ⟨known, reported⟩

theorem of_eq {after : Database} (same : after = db) :
    Advances first db after :=
  same ▸ refl

theorem of_same {after : Database}
    (unihashes : ∀ task, after.unihash task = db.unihash task)
    (rows : after.outhashes = db.outhashes) : Advances first db after := by
  have joins : after.withUnihash = db.withUnihash := by
    funext row
    simp only [Database.withUnihash, unihashes]
  have shared (method outhash : Text) :
      after.shared method outhash = db.shared method outhash := by
    simp only [Database.shared, Database.oldest, Database.joined_eq, rows,
      joins]
  constructor
  · exact fun known => by rwa [unihashes]
  · exact fun reported => by rwa [Database.Reported, rows]
  · exact fun found => by rwa [shared]
  · intro task outhash unihash _ known reported
    rw [unihashes] at known
    rw [Database.Reported, rows] at reported
    exact .inl ⟨known, reported⟩

theorem addUnihash {task : Task} {unihash : Text}
    (suits : db.unihash task = none → ∀ row ∈ db.outhashes, row.task = task →
      ∀ best ∈ db.oldest (Database.group row.method row.outhash),
      first task row.outhash ∨ ¬ Database.older best (row, unihash) →
      best.2 = unihash) :
    Advances first db (db.addUnihash task unihash) := by
  cases known : db.unihash task with
  | some old =>
      have same : db.addUnihash task unihash = db := by
        simp only [Database.unihash, Database.getEquivalent,
          Option.map_eq_some_iff] at known
        obtain ⟨row, found, -⟩ := known
        simp [Database.addUnihash, Database.insertUnihash, found]
      rw [same]
      exact .refl
  | none =>
      have joining := Database.joining_addUnihash unihash known
      have given : (db.addUnihash task unihash).unihash task =
          some unihash := by
        rw [Database.unihash_addUnihash_self, known]
        rfl
      have reported_iff (other : Task) (outhash : Text) :
          (db.addUnihash task unihash).Reported other outhash ↔
            db.Reported other outhash := by
        simp [Database.Reported]
      constructor
      · intro other old found
        have different : other ≠ task := by
          rintro rfl
          cases known.symm.trans found
        rwa [Database.unihash_addUnihash_of_ne unihash different]
      · exact fun reported => (reported_iff _ _).mpr reported
      · intro method outhash old found
        apply joining.shared _ found
        rintro row ⟨member, isTask⟩ grouped best isBest notNewer
        obtain ⟨rfl, rfl⟩ : row.method = method ∧ row.outhash = outhash := by
          simpa [Database.group] using grouped
        exact suits known row member isTask best isBest (.inr notNewer)
      · intro other outhash otherUnihash isFirst found reported
        rw [reported_iff] at reported
        by_cases same : other = task
        · right
          subst same
          cases given.symm.trans found
          obtain ⟨row, member, isTask, rfl⟩ := reported
          have methods : other.method = row.method := by rw [← isTask]; rfl
          rw [methods]
          have grouped : Database.group row.method row.outhash row := by
            simp [Database.group]
          apply joining.shared_of_joins grouped
          · simpa using member
          · rwa [isTask]
          · exact fun best isBest =>
              suits known row member isTask best isBest (.inl isFirst)
        · left
          rw [Database.unihash_addUnihash_of_ne unihash same] at found
          exact ⟨found, reported⟩

theorem insertOuthash {row : OuthashRow}
    (suits : ¬ db.Reported row.task row.outhash →
      ∀ unihash ∈ db.unihash row.task,
      ∀ best ∈ db.oldest (Database.group row.method row.outhash),
      first row.task row.outhash ∨ ¬ Database.older best (row, unihash) →
      best.2 = unihash) :
    Advances first db (db.insertOuthash row) := by
  have reported_iff := @Database.hasOuthash_iff_reported db row.task row.outhash
  by_cases old : db.hasOuthash row.method row.taskhash row.outhash
  · have same : db.insertOuthash row = db := by
      simp [Database.insertOuthash, old]
    rw [same]
    exact .refl
  · have rows : (db.insertOuthash row).outhashes = db.outhashes ++ [row] := by
      simp [Database.insertOuthash, old]
    have known : ∀ known ∈ db.unihash row.task,
        known = (db.unihash row.task).getD [] := by
      intro known found
      rw [Option.mem_def.mp found]
      rfl
    have joining := Database.joining_insertOuthash old known
    constructor
    · exact fun found => by rwa [Database.unihash_insertOuthash]
    · rintro task outhash ⟨other, member, fits⟩
      exact ⟨other, rows ▸ List.mem_append_left _ member, fits⟩
    · intro method outhash shared found
      apply joining.shared _ found
      rintro other ⟨rfl, known⟩ grouped best isBest notNewer
      obtain ⟨rfl, rfl⟩ : other.method = method ∧ other.outhash = outhash := by
        simpa [Database.group] using grouped
      exact suits (reported_iff.not.mp old) _ known best isBest (.inr notNewer)
    · intro task outhash unihash isFirst found reported
      rw [Database.unihash_insertOuthash] at found
      obtain ⟨other, member, rfl, rfl⟩ := reported
      rw [rows] at member
      obtain before | last := List.mem_append.mp member
      · exact .inl ⟨found, other, before, rfl, rfl⟩
      · right
        obtain rfl := List.mem_singleton.mp last
        have grouped : Database.group other.method other.outhash other := by
          simp [Database.group]
        have agrees := suits (reported_iff.not.mp old) unihash found
        rw [found] at joining
        apply joining.shared_of_joins grouped
        · exact rows ▸ List.mem_append_right _ (List.mem_singleton_self _)
        · rwa [Database.unihash_insertOuthash]
        · exact fun best isBest => agrees best isBest (.inl isFirst)

end Advances

/-- How far a first report has come: up to its `insert_unihash` it waits at its
own stages. -/
def Stage.Awaits (db : Database) (data : ReportData) : Stage → Prop
  | .failed => True
  | .insertOuthash other _ _ => other = data
  | .findEquivalent other | .askOuthash other | .insertEquivalent other _
  | .insertReported other _ =>
      other = data ∧ db.Reported data.task data.outhash
  | _ => db.Reported data.task data.outhash ∧ db.unihash data.task ≠ none

/-- The first reports agree with their groups. -/
structure Agreed (watched : Watched) : Prop where
  settled : ∀ {task outhash unihash}, watched.IsFirst task outhash →
    watched.db.unihash task = some unihash →
    watched.db.Reported task outhash →
    watched.db.shared task.method outhash = some unihash
  found : ∀ {data unihash},
    .insertEquivalent data unihash ∈ watched.server.handlers →
    watched.db.unihash data.task = none →
    watched.db.shared data.task.method data.outhash = some unihash
  awaits : ∀ first ∈ watched.firsts, ∃ stage,
    watched.server.handlers[first.1]? = some stage ∧
      stage.Awaits watched.db first.2

section Step

variable {watched : Watched} {first : Task → Text → Prop} {db after : Database}
  {data : ReportData} {stage : Stage}

theorem Stage.Awaits.advance (awaits : stage.Awaits db data)
    (advances : Advances first db after) : stage.Awaits after data := by
  have given : db.unihash data.task ≠ none →
      after.unihash data.task ≠ none := by
    intro known
    obtain ⟨unihash, found⟩ := Option.ne_none_iff_exists'.mp known
    rw [advances.unihash found]
    exact Option.some_ne_none _
  cases stage with
  | failed => trivial
  | insertOuthash => exact awaits
  | findEquivalent | askOuthash | insertEquivalent | insertReported =>
      exact ⟨awaits.1, advances.reported awaits.2⟩
  | _ => exact ⟨advances.reported awaits.1, given awaits.2⟩

variable {task : Task}

theorem Advances.found (advances : Advances first db after)
    {outhash unihash : Text} (before : db.unihash task = none →
      db.shared task.method outhash = some unihash) (missing :
        after.unihash task = none) :
    after.shared task.method outhash = some unihash := by
  apply advances.shared
  apply before
  by_contra known
  obtain ⟨old, found⟩ := Option.ne_none_iff_exists'.mp known
  rw [advances.unihash found] at missing
  cases missing

theorem Agreed.settled_advance (agreed : Agreed watched)
    (advances : Advances watched.IsFirst watched.db after)
    {outhash unihash : Text} (isFirst : watched.IsFirst task outhash)
    (known : after.unihash task = some unihash)
    (reported : after.Reported task outhash) :
    after.shared task.method outhash = some unihash := by
  obtain ⟨known, before⟩ | shared := advances.settled isFirst known reported
  · exact advances.shared (agreed.settled isFirst known before)
  · exact shared

variable {server : State}

theorem Agreed.advance (agreed : Agreed watched)
    (advances : Advances watched.IsFirst watched.db server.db)
    (handlers : server.handlers = watched.server.handlers) :
    Agreed ⟨server, watched.firsts⟩ where
  settled := agreed.settled_advance advances
  found := by
    intro data unihash member
    rw [show server.handlers = _ from handlers] at member
    exact advances.found (agreed.found member)
  awaits := by
    intro first member
    obtain ⟨stage, isStage, awaits⟩ := agreed.awaits first member
    exact ⟨stage, handlers ▸ isStage, awaits.advance advances⟩

variable {index : ℕ} {next : Stage}

theorem Agreed.goOn (agreed : Agreed watched)
    (advances : Advances watched.IsFirst watched.db server.db)
    (at_index : watched.server.handlers[index]? = some stage)
    (handlers : server.handlers = watched.server.handlers.set index next)
    (found : ∀ data unihash, next = .insertEquivalent data unihash →
      watched.db.unihash data.task = none →
      watched.db.shared data.task.method data.outhash = some unihash)
    (awaits : ∀ data, (index, data) ∈ watched.firsts →
      stage.Awaits watched.db data → next.Awaits server.db data) :
    Agreed ⟨server, watched.firsts⟩ where
  settled := agreed.settled_advance advances
  found := by
    intro data unihash member
    rw [show server.handlers = _ from handlers] at member
    apply advances.found
    obtain old | new := List.mem_or_eq_of_mem_set member
    · exact agreed.found old
    · exact found data unihash new.symm
  awaits := by
    intro first member
    obtain ⟨before, isBefore, waits⟩ := agreed.awaits first member
    by_cases same : first.1 = index
    · obtain ⟨key, data⟩ := first
      obtain rfl : key = index := same
      cases isBefore.symm.trans at_index
      refine ⟨next, ?_, awaits data member waits⟩
      have bound := (List.getElem?_eq_some_iff.mp at_index).1
      simp [handlers, List.getElem?_set_self bound]
    · refine ⟨before, ?_, waits.advance advances⟩
      rw [handlers, List.getElem?_set_ne (Ne.symm same)]
      exact isBefore

variable {unihash : Text} {row : OuthashRow} {best : OuthashRow × Text}

theorem Watched.MayGive.agrees {foundIn : Option Text}
    (may : watched.MayGive task unihash foundIn)
    (missing : watched.db.unihash task = none)
    (member : row ∈ watched.db.outhashes) (isTask : row.task = task)
    (elsewhere : foundIn ≠ some row.outhash)
    (isBest : best ∈ watched.db.oldest (Database.group row.method row.outhash))
    (joins : watched.IsFirst task row.outhash ∨
      ¬ Database.older best (row, unihash)) : best.2 = unihash := by
  subst isTask
  have same : watched.db.oldestEquivalent row.method row.outhash row.taskhash =
      watched.db.oldest (Database.group row.method row.outhash) :=
    Database.oldestEquivalent_eq fun _ => missing
  exact may missing row member rfl elsewhere best (same ▸ isBest) joins

theorem Watched.MayInsert.agrees (may : watched.MayInsert row)
    (new : ¬ watched.db.Reported row.task row.outhash)
    (known : unihash ∈ watched.db.unihash row.task)
    (isBest : best ∈ watched.db.oldest (Database.group row.method row.outhash))
    (joins : watched.IsFirst row.task row.outhash ∨
      ¬ Database.older best (row, unihash)) : best.2 = unihash := by
  have same : watched.db.oldestEquivalent row.method row.outhash row.taskhash =
      watched.db.oldest (Database.group row.method row.outhash) :=
    Database.oldestEquivalent_eq fun reported => absurd reported new
  have missing : ¬ watched.db.hasOuthash row.method row.taskhash row.outhash :=
    fun has => new (Database.hasOuthash_iff_reported.mp has)
  exact may missing unihash known best (same ▸ isBest) joins

theorem Agreed.stage_agrees (agreed : Agreed watched)
    (at_index : watched.server.handlers[index]? = some stage)
    (allows : watched.Allows stage) (gives : stage.gives = some (task, unihash))
    (missing : watched.db.unihash task = none)
    (member : row ∈ watched.db.outhashes) (isTask : row.task = task)
    (isBest : best ∈ watched.db.oldest (Database.group row.method row.outhash))
    (joins : watched.IsFirst task row.outhash ∨
      ¬ Database.older best (row, unihash)) : best.2 = unihash := by
  by_cases here : stage.foundIn = some row.outhash
  · cases stage with
    | insertEquivalent data found =>
        cases gives
        have outhashes : data.outhash = row.outhash := Option.some.inj here
        have handler := List.mem_of_getElem? at_index
        have shared := agreed.found handler missing
        have methods : data.task.method = row.method := by rw [← isTask]; rfl
        rw [methods, outhashes, Database.shared, isBest] at shared
        exact Option.some.inj shared
    | _ => cases here
  · exact (allows.1 _ gives).agrees missing member isTask here isBest joins

variable {hasUpstream : Bool}

theorem Agreed.run_advances (agreed : Agreed watched)
    (at_index : watched.server.handlers[index]? = some stage)
    (allows : watched.Allows stage)
    (performed : stage.run hasUpstream watched.db = some (after, next)) :
    Advances watched.IsFirst watched.db after := by
  obtain ⟨-, -, rfl⟩ | ⟨task, unihash, gives, -, rfl⟩ |
    ⟨row, -, inserts, rfl⟩ := Stage.run_db performed
  · exact .refl
  · apply Advances.addUnihash
    intro missing row member isTask best isBest joins
    exact agreed.stage_agrees at_index allows gives missing member isTask isBest
      joins
  · apply Advances.insertOuthash
    intro new unihash known best isBest joins
    exact (allows.2 row inserts).agrees new known isBest joins

theorem run_found (performed : stage.run hasUpstream db =
      some (after, .insertEquivalent data unihash)) (missing :
        db.unihash data.task = none) :
    db.shared data.task.method data.outhash = some unihash := by
  cases stage with
  | findEquivalent other =>
      simp only [Stage.run] at performed
      split at performed
      · next equivalent =>
          cases performed
          rw [Database.getEquivalentForOuthash_eq,
            Database.oldestEquivalent_eq fun _ => missing] at equivalent
          exact equivalent
      · cases hasUpstream <;> cases performed
  | lookup | lookupFull | lookupStream =>
      simp only [Stage.run] at performed
      split at performed <;> cases hasUpstream <;> cases performed
  | lookupEquiv =>
      simp only [Stage.run] at performed
      split at performed <;> cases performed
  | _ => cases performed

theorem run_awaits
    (performed : stage.run hasUpstream watched.db = some (after, next))
    (advances : Advances watched.IsFirst watched.db after)
    (awaits : stage.Awaits watched.db data) : next.Awaits after data := by
  have later := awaits.advance advances
  cases stage with
  | insertOuthash other user created =>
      obtain rfl : other = data := awaits
      cases performed
      exact ⟨rfl, Database.reported_insertOuthash (other.row user created)⟩
  | findEquivalent other =>
      simp only [Stage.run] at performed
      split at performed
      · cases performed
        exact later
      · cases hasUpstream <;> cases performed <;> exact later
  | insertEquivalent other unihash | insertReported other unihash =>
      cases performed
      obtain ⟨rfl, reported⟩ := later
      exact ⟨reported, Database.unihash_addUnihash_ne_none⟩
  | lookup | lookupFull | lookupStream =>
      simp only [Stage.run] at performed
      split at performed <;> cases hasUpstream <;> cases performed <;>
        exact later
  | lookupEquiv =>
      simp only [Stage.run] at performed
      split at performed <;> cases performed
      · exact later
      · trivial
  | askOuthash | askTaskhash | askFull | askStream | replied | failed =>
      cases performed
  | _ =>
      cases performed
      exact later

theorem resume_awaits {answer : Answer}
    (resumed : stage.resume answer = some next)
    (awaits : stage.Awaits db data) : next.Awaits db data := by
  cases stage with
  | askOuthash other =>
      cases answer <;> cases resumed
      exact awaits
  | askTaskhash task =>
      rcases answer with _ | (_ | answer) | _ <;> cases resumed
      · trivial
      · exact awaits
  | askFull task =>
      rcases answer with _ | _ | (_ | answer) <;> cases resumed <;>
        exact awaits
  | askStream task =>
      rcases answer with (_ | _ | _) | _ | _ <;> cases resumed <;>
        exact awaits
  | _ => cases resumed

theorem Agreed.request (agreed : Agreed watched) (request : Request)
    (db_eq : server.db = watched.db)
    (handlers : server.handlers = watched.server.handlers ++ [request.begin]) :
    Agreed ⟨server, watched.firsts ++
      Watched.firstsOf watched.server (.request request)⟩ where
  settled := by
    rintro task outhash unihash ⟨first, member, rfl, rfl⟩ known reported
    rw [Watched.db, db_eq] at known reported ⊢
    obtain old | new := List.mem_append.mp member
    · exact agreed.settled ⟨first, old, rfl, rfl⟩ known reported
    · cases request with
      | report data user created =>
          simp only [Watched.firstsOf] at new
          split_ifs at new with isNew
          · rw [List.mem_singleton.mp new] at known
            cases isNew.1.symm.trans known
          · cases new
      | _ => cases new
  found := by
    intro data unihash member
    rw [Watched.db, db_eq]
    apply agreed.found
    rw [show Watched.server _ = server from rfl, handlers] at member
    obtain old | new := List.mem_append.mp member
    · exact old
    · cases request <;> cases List.mem_singleton.mp new
  awaits := by
    intro first member
    rw [Watched.db, db_eq]
    simp only [handlers]
    obtain old | new := List.mem_append.mp member
    · obtain ⟨stage, isStage, awaits⟩ := agreed.awaits first old
      have bound := (List.getElem?_eq_some_iff.mp isStage).1
      exact ⟨stage, (List.getElem?_append_left bound).trans isStage, awaits⟩
    · cases request with
      | report data user created =>
          simp only [Watched.firstsOf] at new
          split_ifs at new
          · rw [List.mem_singleton.mp new]
            exact ⟨_, List.getElem?_concat_length, rfl⟩
          · cases new
      | _ => cases new

theorem not_resume_insertEquivalent {answer : Answer} :
    stage.resume answer ≠ some (.insertEquivalent data unihash) := by
  cases stage with
  | askOuthash other => cases answer <;> rintro ⟨⟩
  | askTaskhash task => rcases answer with _ | (_ | answer) | _ <;> rintro ⟨⟩
  | askFull task => rcases answer with _ | _ | (_ | answer) <;> rintro ⟨⟩
  | askStream task => rcases answer with (_ | _ | _) | _ | _ <;> rintro ⟨⟩
  | _ => rintro ⟨⟩

theorem Watched.Unhindered.not_removes {action : Action}
    (meets : watched.Unhindered action) : ¬ action.removes := by
  cases action with
  | gcSweep | remove => exact meets.elim
  | _ => exact id

theorem Agreed.perform (agreed : Agreed watched) {next : Watched}
    {action : Action} (meets : watched.Unhindered action)
    (performed : watched.perform action = some next) : Agreed next := by
  obtain ⟨server, served, rfl⟩ := Option.map_eq_some_iff.mp performed
  cases State.performs served with
  | request request db handlers => exact agreed.request request db handlers
  | run isStage ran handlers =>
      simp only [Watched.firstsOf, List.append_nil]
      have allows := meets _ isStage
      have advances := agreed.run_advances isStage allows ran
      refine agreed.goOn advances isStage handlers ?_ ?_
      · rintro data unihash rfl
        exact run_found ran
      · exact fun data _ => run_awaits ran advances
  | answer isStage resumed db handlers =>
      simp only [Watched.firstsOf, List.append_nil]
      refine agreed.goOn (.of_eq db) isStage handlers ?_ ?_
      · rintro data unihash rfl
        exact absurd resumed not_resume_insertEquivalent
      · rw [db]
        exact fun data _ => resume_awaits resumed
  | fail isStage db handlers =>
      simp only [Watched.firstsOf, List.append_nil]
      refine agreed.goOn (.of_eq db) isStage handlers ?_ ?_
      · rintro data unihash ⟨⟩
      · exact fun _ _ _ => trivial
  | waits action_eq db handlers =>
      obtain rfl | ⟨answer, rfl⟩ := action_eq <;>
        simp only [Watched.firstsOf, List.append_nil] <;>
        exact agreed.advance (.of_eq db) handlers
  | insertBackfill gives db handlers =>
      simp only [Watched.firstsOf, List.append_nil]
      have may := meets _ gives
      refine agreed.advance ?_ handlers
      rw [db]
      apply Advances.addUnihash
      intro missing row member isTask best isBest joins
      exact may.agrees missing member isTask (Option.some_ne_none _).symm
        isBest joins
  | gcMark db handlers =>
      simp only [Watched.firstsOf, List.append_nil]
      refine agreed.advance ?_ handlers
      rw [db]
      exact .of_same (Database.unihash_markRows _ _) rfl
  | removes removes => exact absurd removes meets.not_removes

end Step

theorem Agreed.start {watched : Watched} (started : watched.Start) :
    Agreed watched where
  settled := by
    rintro task outhash unihash ⟨first, member, -⟩
    rw [started.none_yet] at member
    cases member
  found := by
    intro data unihash member
    rw [started.server.idle] at member
    cases member
  awaits := by
    intro first member
    rw [started.none_yet] at member
    cases member

namespace Watched

/-- The request has been answered. -/
def Complete (watched : Watched) (index : ℕ) : Prop :=
  ∃ task unihash,
    watched.server.handlers[index]? = some (.replied task unihash)

variable {start middle final : Watched}

theorem unihash_stays {task : Task} {unihash : Text}
    (later : Reachable (· = middle) Step Unhindered final)
    (known : middle.db.unihash task = some unihash) :
    final.db.unihash task = some unihash := by
  refine @Reachable.invariant _ _ (· = middle) Step Unhindered final
    (fun watched => watched.db.unihash task = some unihash) ?_ ?_ later
  · rintro _ rfl
    exact known
  · intro state action next known meets stepped
    obtain ⟨server, served, rfl⟩ := Option.map_eq_some_iff.mp stepped
    exact State.unihash_stays served meets.not_removes known

/-- Two reports of new tasks with one output hash end with one unihash, the one
that either of them had before. -/
theorem reports_unified (started : Start start)
    (before : Reachable (· = start) Step Unhindered middle)
    (later : Reachable (· = middle) Step Unhindered final)
    {first second : ℕ × ReportData} (firstMember : first ∈ final.firsts)
    (secondMember : second ∈ final.firsts)
    (methods : first.2.task.method = second.2.task.method)
    (outhashes : first.2.outhash = second.2.outhash)
    (firstDone : final.Complete first.1)
    (secondDone : final.Complete second.1) :
    ∃ unihash, final.db.unihash first.2.task = some unihash ∧
      final.db.unihash second.2.task = some unihash ∧
      ∀ given, (middle.db.unihash first.2.task = some given ∨
        middle.db.unihash second.2.task = some given) → given = unihash := by
  have keeps : ∀ state action next, Agreed state → Unhindered state action →
      Step state action next → Agreed next :=
    fun _ _ _ agreed meets stepped => agreed.perform meets stepped
  have agreedMiddle : Agreed middle :=
    before.invariant (by
      rintro _ rfl
      exact .start started) keeps
  have agreed : Agreed final :=
    later.invariant (by
      rintro _ rfl
      exact agreedMiddle) keeps
  have settled {request : ℕ × ReportData} (member : request ∈ final.firsts)
      (done : final.Complete request.1) :
      ∃ unihash, final.db.unihash request.2.task = some unihash ∧
        final.db.shared request.2.task.method request.2.outhash =
          some unihash := by
    obtain ⟨stage, isStage, awaits⟩ := agreed.awaits request member
    obtain ⟨task, answer, isReplied⟩ := done
    cases isStage.symm.trans isReplied
    obtain ⟨reported, known⟩ := awaits
    obtain ⟨unihash, found⟩ := Option.ne_none_iff_exists'.mp known
    exact ⟨unihash, found,
      agreed.settled ⟨request, member, rfl, rfl⟩ found reported⟩
  obtain ⟨unihash, firstKnown, firstShared⟩ := settled firstMember firstDone
  obtain ⟨other, secondKnown, secondShared⟩ := settled secondMember secondDone
  rw [methods, outhashes, secondShared] at firstShared
  obtain rfl : other = unihash := Option.some.inj firstShared
  refine ⟨other, firstKnown, secondKnown, ?_⟩
  rintro given (known | known)
  · exact Option.some.inj ((unihash_stays later known).symm.trans firstKnown)
  · exact Option.some.inj ((unihash_stays later known).symm.trans secondKnown)

section Runs

def noInfo : OuthashInfo :=
  ⟨none, none, none, none, none, none⟩

/-- A report of a task with output hash `out`, which proposes the taskhash. -/
def reportOf (taskhash : String) : ReportData :=
  ⟨⟨"m".toList, taskhash.toList⟩, "out".toList, taskhash.toList, noInfo⟩

def requestOf (taskhash created : String) : Action :=
  .request (.report (reportOf taskhash) none created.toList)

def emptyServer (hasUpstream : Bool) : Watched :=
  ⟨⟨.empty, hasUpstream, [], [], .idle⟩, []⟩

theorem start_emptyServer (hasUpstream : Bool) :
    Start (emptyServer hasUpstream) :=
  ⟨⟨rfl, rfl, rfl, by simp [emptyServer, Database.empty]⟩, rfl⟩

/-- The server when the reports of two tasks are answered. -/
def bothReplied (hasUpstream : Bool) (secondUnihash : String) : Watched where
  server := {
    db := {
      unihashes := [⟨1, "m".toList, "a".toList, "a".toList, []⟩,
        ⟨2, "m".toList, "b".toList, secondUnihash.toList, []⟩]
      outhashes := [(reportOf "a").row none "1".toList,
        (reportOf "b").row none "2".toList]
      nextId := 3
      gcMark := none }
    hasUpstream := hasUpstream
    handlers := [.replied (reportOf "a").task (some "a".toList),
      .replied (reportOf "b").task (some secondUnihash.toList)]
    queue := []
    worker := .idle }
  firsts := [(0, reportOf "a"), (1, reportOf "b")]

/-- The first report has found no equivalent task and has inserted its own
unihash. -/
def firstGiven : Watched where
  server := {
    db := {
      unihashes := [⟨1, "m".toList, "a".toList, "a".toList, []⟩]
      outhashes := [(reportOf "a").row none "1".toList]
      nextId := 2
      gcMark := none }
    hasUpstream := false
    handlers := [.lookup (reportOf "a").task (some "a".toList)]
    queue := []
    worker := .idle }
  firsts := [(0, reportOf "a")]

/-- The second report finds the first one's unihash. -/
theorem reports_unified_in_turn :
    ∃ unihash,
      (bothReplied false "a").db.unihash (reportOf "a").task = some unihash ∧
      (bothReplied false "a").db.unihash (reportOf "b").task = some unihash ∧
      ∀ given, (firstGiven.db.unihash (reportOf "a").task = some given ∨
        firstGiven.db.unihash (reportOf "b").task = some given) →
        given = unihash := by
  have before : follow perform Unhindered
      [requestOf "a" "1", .run 0, .run 0, .run 0] (emptyServer false) =
      some firstGiven := by rfl
  have later : follow perform Unhindered
      [requestOf "b" "2", .run 1, .run 0, .run 1, .run 0, .run 1, .run 1,
        .run 1] firstGiven = some (bothReplied false "a") := by rfl
  exact reports_unified (start_emptyServer false)
    (.follow (fun _ _ _ performed => performed) _ (.start rfl) before)
    (.follow (fun _ _ _ performed => performed) _ (.start rfl) later)
    (List.mem_cons_self) (List.mem_cons_of_mem _ List.mem_cons_self) rfl rfl
    ⟨_, _, rfl⟩ ⟨_, _, rfl⟩

def OfReports (_ : Watched) : Action → Prop
  | .request (.report _ _ _) | .run _ | .answer _ _ | .fail _ => True
  | _ => False

instance instDecidableOfReports (watched : Watched) :
    (action : Action) → Decidable (OfReports watched action)
  | .request (.report _ _ _) | .run _ | .answer _ _ | .fail _ => isTrue trivial
  | .request (.reportEquiv _ _) | .request (.get _) | .request (.getAll _)
  | .request (.getStream _) | .takeBackfill | .answerBackfill _
  | .insertBackfill | .gcMark _ _ | .gcSweep _ | .remove _ => isFalse id

/-- Both reports have inserted their outhash rows and found no unihash when the
upstream server is asked, which does not know the output hash either. -/
def overlapping : List Action :=
  [requestOf "a" "1", .run 0, .run 0, requestOf "b" "2", .run 1, .run 1,
    .answer 0 (.unihash none), .run 0, .run 0, .run 0,
    .answer 1 (.unihash none), .run 1, .run 1, .run 1]

theorem not_reports_unified_overlapping :
    ¬ ∀ start middle final : Watched, Start start →
      Reachable (· = start) Step OfReports middle →
      Reachable (· = middle) Step OfReports final →
      ∀ first ∈ final.firsts, ∀ second ∈ final.firsts,
      first.2.task ≠ second.2.task →
      first.2.task.method = second.2.task.method →
      first.2.outhash = second.2.outhash →
      final.Complete first.1 → final.Complete second.1 →
      ∃ unihash, final.db.unihash first.2.task = some unihash ∧
        final.db.unihash second.2.task = some unihash ∧
        ∀ given, (middle.db.unihash first.2.task = some given ∨
          middle.db.unihash second.2.task = some given) → given = unihash := by
  intro claimed
  have followed : follow perform OfReports overlapping (emptyServer true) =
      some (bothReplied true "b") := by rfl
  obtain ⟨unihash, first, second, -⟩ :=
    claimed _ _ _ (start_emptyServer true) (.start rfl)
      (.follow (fun _ _ _ performed => performed) _ (.start rfl) followed)
      (0, reportOf "a") List.mem_cons_self
      (1, reportOf "b") (List.mem_cons_of_mem _ List.mem_cons_self)
      (by decide) rfl rfl ⟨_, _, rfl⟩ ⟨_, _, rfl⟩
  have known : (bothReplied true "b").db.unihash (reportOf "a").task =
      some "a".toList := rfl
  have other : (bothReplied true "b").db.unihash (reportOf "b").task =
      some "b".toList := rfl
  have different : "a".toList = "b".toList :=
    Option.some.inj ((known.symm.trans first).trans (second.symm.trans other))
  revert different
  decide

end Runs

end Watched

end Nvbmc.HashServ
