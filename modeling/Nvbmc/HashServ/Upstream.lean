import Nvbmc.HashServ.Users

/-!
# Rows from the upstream server

The handlers that ask the upstream server for a row they do not have, each run
without another one in between.  The upstream server may give any row for an
answer, or none.
-/

namespace Nvbmc.HashServ

open Nvbmc.Library

namespace Database

variable (db : Database)

/-- `get_unihash_by_taskhash_full` with all columns. -/
def unihashFull (task : Task) : Option FullData :=
  (db.oldest fun row => row.task = task).map fun found => ⟨found.1, found.2⟩

/-- `get_unihash_by_outhash`. -/
def unihashByOuthash (method outhash : Text) : Option FullData :=
  (db.oldest fun row => row.method = method ∧ row.outhash = outhash).map
    fun found => ⟨found.1, found.2⟩

/-- `get_outhash`. -/
def outhashRow (method outhash : Text) : Option OuthashRow :=
  (extremum older ((db.outhashes.filter fun row =>
    row.method = method ∧ row.outhash = outhash).map (·, []))).map (·.1)

end Database

namespace Upstream

structure UpstreamClient where
  /-- `get_taskhash`. -/
  getTaskhash : Task → Option TaskhashData
  /-- `get_taskhash` with all columns. -/
  getTaskhashFull : Task → Option FullData
  /-- `get_outhash`, for a method, an outhash and a taskhash. -/
  getOuthash : Text → Text → Text → Option FullData

/-- A row with a unihash. -/
inductive Row where
  | taskhash (data : TaskhashData)
  | full (data : FullData)
  deriving DecidableEq

def Row.task : Row → Task
  | .taskhash data => data.task
  | .full data => data.task

def Row.unihash : Row → Text
  | .taskhash data => data.unihash
  | .full data => data.unihash

/-- What a client is answered. -/
inductive Reply where
  | nothing
  | row (row : Row)
  /-- A row of the table `outhashes_v2` alone. -/
  | outhash (row : OuthashRow)
  | reported (task : Task) (unihash : Text)
  deriving DecidableEq

section Handlers

variable (upstream : Option UpstreamClient) (db : Database)

/-- `update_unified`. -/
def updateUnified : Option FullData → Database
  | none => db
  | some data => (db.addUnihash data.task data.unihash).insertOuthash data.row

/-- `get_unihash`; `none` when it raises. -/
def getUnihash (task : Task) : Option (Option TaskhashData × Database) :=
  match db.unihash task with
  | some unihash => some (some ⟨task, unihash⟩, db)
  | none =>
      match upstream with
      | none => some (none, db)
      | some client =>
          match client.getTaskhash task with
          | some data => some (some data, db.addUnihash data.task data.unihash)
          -- `None["method"]`
          | none => none

/-- `get_unihash` with all columns. -/
def getUnihashAll (task : Task) : Option FullData × Database :=
  match db.unihashFull task with
  | some data => (some data, db)
  | none =>
      match upstream with
      | none => (none, db)
      | some client =>
          let data := client.getTaskhashFull task
          (data, updateUnified db data)

/-- The local row of `get_outhash`. -/
def outhashReply (method outhash : Text) (withUnihash : Bool) : Option Reply :=
  if withUnihash then (db.unihashByOuthash method outhash).map (.row <| .full ·)
  else (db.outhashRow method outhash).map .outhash

/-- `get_outhash`. -/
def getOuthash (method outhash taskhash : Text) (withUnihash : Bool) :
    Reply × Database :=
  match outhashReply db method outhash withUnihash with
  | some reply => (reply, db)
  | none =>
      match upstream with
      | none => (.nothing, db)
      | some client =>
          let data := client.getOuthash method outhash taskhash
          (data.elim .nothing (.row <| .full ·), updateUnified db data)

/-- `report_readonly`. -/
def reportReadonly (data : ReportData) : Reply × Database :=
  let (info, after) := getOuthash upstream db data.task.method data.outhash
    data.task.taskhash true
  match info with
  | .row row => (.reported data.task row.unihash, after)
  | _ => (.reported data.task data.unihash, after)

/-- The unihash a report proposes for its task. -/
def newUnihash (data : ReportData) : Text :=
  match db.getEquivalentForOuthash data.task.method data.outhash
    data.task.taskhash with
  | some unihash => unihash
  | none =>
      match upstream with
      | none => data.unihash
      | some client =>
          match client.getOuthash data.task.method data.outhash
            data.task.taskhash with
          | some found => found.unihash
          | none => data.unihash

/-- `handle_report` where the server and the client's permissions allow it to
write; `none` when it raises. -/
def report (data : ReportData) (user : Option Text) (created : Text) :
    Option (Reply × Database) := do
  let inserted := db.insertOuthash (data.row user created)
  let before :=
    inserted.addUnihash data.task (newUnihash upstream inserted data)
  let (found, after) ← getUnihash upstream before data.task
  some (.reported data.task ((found.map (·.unihash)).getD data.unihash), after)

/-- The messages by a client with read permission. -/
inductive Message where
  | get (task : Task)
  /-- `get` with `all`. -/
  | getAll (task : Task)
  | getOuthash (method outhash taskhash : Text) (withUnihash : Bool)
  /-- `report`; `writes` when the server is not read-only and the client has
  report permission. -/
  | report (data : ReportData) (user : Option Text) (created : Text)
      (writes : Bool)

/-- The handler of a message: its answer and the database behind it, `none` when
it raises. -/
def handle : Message → Option (Reply × Database)
  | .get task =>
      (getUnihash upstream db task).map fun (data, after) =>
        (data.elim .nothing (.row <| .taskhash ·), after)
  | .getAll task =>
      let (data, after) := getUnihashAll upstream db task
      some (data.elim .nothing (.row <| .full ·), after)
  | .getOuthash method outhash taskhash withUnihash =>
      some (getOuthash upstream db method outhash taskhash withUnihash)
  | .report data user created writes =>
      if writes then report upstream db data user created
      else some (reportReadonly upstream db data)

end Handlers

namespace Message

def inserts : Message → Bool
  | .report _ _ _ writes => writes
  | _ => false

def localReply (db : Database) : Message → Option Reply
  | .get task =>
      (db.unihash task).map fun unihash => .row (.taskhash ⟨task, unihash⟩)
  | .getAll task => (db.unihashFull task).map (.row <| .full ·)
  | .getOuthash method outhash _ withUnihash =>
      outhashReply db method outhash withUnihash
  | .report data user created writes =>
      let unihash :=
        if writes then
          db.unihash data.task <|>
            (db.insertOuthash (data.row user created)).getEquivalentForOuthash
              data.task.method data.outhash data.task.taskhash
        else (db.unihashByOuthash data.task.method data.outhash).map
          (·.unihash)
      unihash.map (.reported data.task)

/-- The row that the upstream server answers. -/
def ask (client : UpstreamClient) : Message → Option Row
  | .get task => (client.getTaskhash task).map .taskhash
  | .getAll task => (client.getTaskhashFull task).map .full
  | .getOuthash method outhash taskhash _ =>
      (client.getOuthash method outhash taskhash).map .full
  | .report data _ _ _ =>
      (client.getOuthash data.task.method data.outhash
        data.task.taskhash).map .full

def upstreamReply (row : Row) : Message → Reply
  | .report data _ _ _ => .reported data.task row.unihash
  | _ => .row row

/-- The answer without any row. -/
def noReply : Message → Reply
  | .report data _ _ _ => .reported data.task data.unihash
  | _ => .nothing

/-- The row is in the local tables; of the row for a report that inserts a
unihash that is the unihash, under the reported task. -/
def Stored (after : Database) (row : Row) : Message → Prop
  | .report data _ _ true => after.unihash data.task = some row.unihash
  | _ => RowStored after row
where
  RowStored (after : Database) : Row → Prop
    | .taskhash data => after.unihash data.task = some data.unihash
    | .full data => after.unihash data.task = some data.unihash ∧
        data.row ∈ after.outhashes

end Message

/-- A message is answered without raising, by a local row, a row of the upstream
server or none of these.  An answered row of the upstream server is stored, and
without one everything is as without an upstream server. -/
structure Harmless (client : UpstreamClient) (db : Database)
    (message : Message) : Prop where
  answered : (handle (some client) db message).map (·.1) =
    some ((message.localReply db <|>
      (message.ask client).map fun row => message.upstreamReply row).getD
        message.noReply)
  stored : message.localReply db = none → ∀ row ∈ message.ask client,
    ∀ reply after, handle (some client) db message = some (reply, after) →
      message.Stored after row
  missed : message.ask client = none →
    handle (some client) db message = handle none db message

namespace Message

/-- The handler raises when there is neither a local row nor one of the upstream
server. -/
def needsRow : Message → Bool
  | .get _ => true
  | _ => false

end Message

/-- The local tables have no other row in the place of this one. -/
structure Fits (db : Database) (row : Row) : Prop where
  unihash : ∀ unihash ∈ db.unihash row.task, unihash = row.unihash
  outhash : ∀ data, row = .full data →
    db.hasOuthash data.task.method data.task.taskhash data.row.outhash →
    data.row ∈ db.outhashes

/-- Without a local row the upstream server has a row where one is needed, and
its row fits into the local tables where it is returned. -/
structure Covered (client : UpstreamClient) (db : Database)
    (message : Message) : Prop where
  found : message.localReply db = none → message.needsRow →
    (message.ask client).isSome
  fits : message.localReply db = none → ¬ message.inserts →
    ∀ row ∈ message.ask client, Fits db row

section Main

variable {client : UpstreamClient} {db : Database} {message : Message}

theorem unihash_addUnihash_iff {task : Task} {unihash : Text} :
    (db.addUnihash task unihash).unihash task = some unihash ↔
      ∀ old ∈ db.unihash task, old = unihash := by
  rw [Database.unihash_addUnihash_self, Option.some.injEq]
  cases db.unihash task <;> simp

theorem mem_insertOuthash_iff {row : OuthashRow} :
    row ∈ (db.insertOuthash row).outhashes ↔
      (db.hasOuthash row.method row.taskhash row.outhash →
        row ∈ db.outhashes) := by
  rw [Database.insertOuthash]
  split_ifs with present <;> simp [present]

theorem stored_taskhash {data : TaskhashData} :
    Message.Stored.RowStored (db.addUnihash data.task data.unihash)
      (.taskhash data) ↔ Fits db (.taskhash data) := by
  rw [Message.Stored.RowStored, unihash_addUnihash_iff]
  exact ⟨fun same => ⟨same, nofun⟩, fun fits => fits.unihash⟩

theorem hasOuthash_addUnihash (task : Task)
    (unihash method taskhash outhash : Text) :
    (db.addUnihash task unihash).hasOuthash method taskhash outhash =
      db.hasOuthash method taskhash outhash := by
  simp only [Database.hasOuthash, Database.outhashes_addUnihash]

theorem stored_full {data : FullData} :
    Message.Stored.RowStored (updateUnified db (some data)) (.full data) ↔
      Fits db (.full data) := by
  rw [Message.Stored.RowStored, updateUnified, Database.unihash_insertOuthash,
    unihash_addUnihash_iff, mem_insertOuthash_iff, hasOuthash_addUnihash,
    Database.outhashes_addUnihash]
  constructor
  · rintro ⟨same, inserted⟩
    refine ⟨same, ?_⟩
    rintro _ ⟨⟩ present
    exact inserted present
  · intro fits
    exact ⟨fits.unihash, fits.outhash data rfl⟩

theorem harmless_of_local {reply : Reply}
    (here : message.localReply db = some reply)
    (handled : (handle (some client) db message).map (·.1) = some reply)
    (same : handle (some client) db message = handle none db message) :
    Harmless client db message ↔ Covered client db message := by
  have answer : message.localReply db ≠ none := by simp [here]
  refine iff_of_true ⟨?_, ?_, ?_⟩ ⟨?_, ?_⟩
  · simp [handled, here]
  · exact fun missing => absurd missing answer
  · exact fun _ => same
  · exact fun missing => absurd missing answer
  · exact fun missing => absurd missing answer

variable (missing : message.localReply db = none)
include missing

theorem harmless_of_row {row : Row} {after : Database}
    (asked : message.ask client = some row)
    (handled : handle (some client) db message =
      some (message.upstreamReply row, after)) :
    Harmless client db message ↔ message.Stored after row := by
  constructor
  · exact fun harmless => harmless.stored missing row asked _ _ handled
  · intro stored
    refine ⟨?_, ?_, ?_⟩
    · simp [handled, missing, asked]
    · intro _ row' asked' reply after' handled'
      cases asked.symm.trans asked'
      cases handled.symm.trans handled'
      exact stored
    · simp [asked]

theorem covered_of_row {row : Row} (asked : message.ask client = some row)
    (reads : message.inserts = false) :
    Covered client db message ↔ Fits db row := by
  constructor
  · exact fun covered => covered.fits missing (by simp [reads]) row asked
  · intro fits
    refine ⟨?_, ?_⟩
    · simp [asked]
    · intro _ _ row' asked'
      cases asked.symm.trans asked'
      exact fits

theorem harmless_of_miss {after : Database}
    (asked : message.ask client = none)
    (handled : handle (some client) db message = some (message.noReply, after))
    (same : handle (some client) db message = handle none db message)
    (optional : message.needsRow = false) :
    Harmless client db message ↔ Covered client db message := by
  refine iff_of_true ⟨?_, ?_, ?_⟩ ⟨?_, ?_⟩
  · simp [handled, missing, asked]
  · simp [asked]
  · exact fun _ => same
  · simp [optional]
  · simp [asked]

theorem harmless_of_raise (asked : message.ask client = none)
    (raised : handle (some client) db message = none)
    (needed : message.needsRow = true) :
    Harmless client db message ↔ Covered client db message := by
  refine iff_of_false (fun harmless => ?_) (fun covered => ?_)
  · have answered := harmless.answered
    simp [raised] at answered
  · have found := covered.found missing needed
    simp [asked] at found

omit missing

theorem harmless_get (task : Task) :
    Harmless client db (.get task) ↔ Covered client db (.get task) := by
  cases known : db.unihash task with
  | some unihash =>
      apply harmless_of_local
      · simp [Message.localReply, known]
        rfl
      · simp [handle, getUnihash, known]
      · simp [handle, getUnihash, known]
  | none =>
      have missing : (Message.get task).localReply db = none := by
        simp [Message.localReply, known]
      cases given : client.getTaskhash task with
      | none =>
          apply harmless_of_raise missing
          · simp [Message.ask, given]
          · simp [handle, getUnihash, known, given]
          · rfl
      | some data =>
          have asked : (Message.get task).ask client =
              some (.taskhash data) := by
            simp [Message.ask, given]
          rw [covered_of_row missing asked rfl, ← stored_taskhash]
          apply harmless_of_row missing asked
          simp [handle, getUnihash, known, given, Message.upstreamReply]

theorem harmless_getAll (task : Task) :
    Harmless client db (.getAll task) ↔ Covered client db (.getAll task) := by
  cases known : db.unihashFull task with
  | some data =>
      apply harmless_of_local
      · simp [Message.localReply, known]
        rfl
      · simp [handle, getUnihashAll, known]
      · simp [handle, getUnihashAll, known]
  | none =>
      have missing : (Message.getAll task).localReply db = none := by
        simp [Message.localReply, known]
      cases given : client.getTaskhashFull task with
      | none =>
          apply harmless_of_miss missing
          · simp [Message.ask, given]
          · simp [handle, getUnihashAll, known, given, Message.noReply]
            rfl
          · simp [handle, getUnihashAll, known, given, updateUnified]
          · rfl
      | some data =>
          have asked : (Message.getAll task).ask client =
              some (.full data) := by
            simp [Message.ask, given]
          rw [covered_of_row missing asked rfl, ← stored_full]
          apply harmless_of_row missing asked
          simp [handle, getUnihashAll, known, given, Message.upstreamReply]

theorem harmless_getOuthash (method outhash taskhash : Text)
    (withUnihash : Bool) :
    Harmless client db (.getOuthash method outhash taskhash withUnihash) ↔
      Covered client db (.getOuthash method outhash taskhash withUnihash) := by
  cases known : outhashReply db method outhash withUnihash with
  | some reply =>
      apply harmless_of_local
      · simp [Message.localReply, known]
        rfl
      · simp [handle, getOuthash, known]
      · simp [handle, getOuthash, known]
  | none =>
      have missing : (Message.getOuthash method outhash taskhash
          withUnihash).localReply db = none := by
        simp [Message.localReply, known]
      cases given : client.getOuthash method outhash taskhash with
      | none =>
          apply harmless_of_miss missing
          · simp [Message.ask, given]
          · simp [handle, getOuthash, known, given, Message.noReply]
            rfl
          · simp [handle, getOuthash, known, given, updateUnified]
          · rfl
      | some data =>
          have asked : (Message.getOuthash method outhash taskhash
              withUnihash).ask client = some (.full data) := by
            simp [Message.ask, given]
          rw [covered_of_row missing asked rfl, ← stored_full]
          apply harmless_of_row missing asked
          simp [handle, getOuthash, known, given, Message.upstreamReply]

theorem harmless_reportReadonly (data : ReportData) (user : Option Text)
    (created : Text) :
    Harmless client db (.report data user created false) ↔
      Covered client db (.report data user created false) := by
  cases known : db.unihashByOuthash data.task.method data.outhash with
  | some found =>
      apply harmless_of_local
      · simp [Message.localReply, known]
        rfl
      · simp [handle, reportReadonly, getOuthash, outhashReply, known,
          Row.unihash]
      · simp [handle, reportReadonly, getOuthash, outhashReply, known]
  | none =>
      have missing : (Message.report data user created false).localReply db =
          none := by
        simp [Message.localReply, known]
      cases given : client.getOuthash data.task.method data.outhash
        data.task.taskhash with
      | none =>
          apply harmless_of_miss missing
          · simp [Message.ask, given]
          · simp [handle, reportReadonly, getOuthash, outhashReply, known,
              given, Message.noReply]
            rfl
          · simp [handle, reportReadonly, getOuthash, outhashReply, known,
              given, updateUnified]
          · rfl
      | some found =>
          have asked : (Message.report data user created false).ask client =
              some (.full found) := by
            simp [Message.ask, given]
          rw [covered_of_row missing asked rfl, ← stored_full]
          apply harmless_of_row missing asked
          simp [handle, reportReadonly, getOuthash, outhashReply, known, given,
            Message.upstreamReply]

theorem addUnihash_of_known {task : Task} {old : Text}
    (known : db.unihash task = some old) (unihash : Text) :
    db.addUnihash task unihash = db := by
  simp only [Database.unihash, Database.getEquivalent, Option.map_eq_some_iff]
    at known
  obtain ⟨row, found, _⟩ := known
  simp [Database.addUnihash, Database.insertUnihash, found]

theorem report_eq (upstream : Option UpstreamClient) (data : ReportData)
    (user : Option Text) (created : Text) :
    let inserted := db.insertOuthash (data.row user created)
    report upstream db data user created =
      some (.reported data.task
          ((db.unihash data.task).getD (newUnihash upstream inserted data)),
        inserted.addUnihash data.task (newUnihash upstream inserted data)) := by
  intro inserted
  have known : (inserted.addUnihash data.task
      (newUnihash upstream inserted data)).unihash data.task =
        some ((db.unihash data.task).getD
          (newUnihash upstream inserted data)) := by
    rw [Database.unihash_addUnihash_self, Database.unihash_insertOuthash]
  simp [report, getUnihash, known, inserted]

theorem harmless_report (data : ReportData) (user : Option Text)
    (created : Text) :
    Harmless client db (.report data user created true) ↔
      Covered client db (.report data user created true) := by
  let inserted := db.insertOuthash (data.row user created)
  have handled : ∀ upstream,
      handle upstream db (.report data user created true) =
      some (.reported data.task
          ((db.unihash data.task).getD (newUnihash upstream inserted data)),
        inserted.addUnihash data.task (newUnihash upstream inserted data)) :=
    fun upstream => report_eq upstream data user created
  have kept : inserted.unihash data.task = db.unihash data.task :=
    db.unihash_insertOuthash (data.row user created) data.task
  cases known : db.unihash data.task with
  | some old =>
      rw [known] at kept
      have ignored := addUnihash_of_known kept
      apply harmless_of_local
      · simp [Message.localReply, known]
        rfl
      · simp [handled, known]
      · simp [handled, known, ignored]
  | none =>
      cases equivalent : inserted.getEquivalentForOuthash data.task.method
        data.outhash data.task.taskhash with
      | some unihash =>
          have chosen : ∀ upstream, newUnihash upstream inserted data =
              unihash := by
            intro upstream
            simp [newUnihash, equivalent]
          apply harmless_of_local
          · simp [Message.localReply, known, inserted, equivalent]
            rfl
          · simp [handled, known, chosen]
          · simp [handled, chosen]
      | none =>
          have missing : (Message.report data user created true).localReply db =
              none := by
            simpa [Message.localReply, known] using equivalent
          cases given : client.getOuthash data.task.method data.outhash
            data.task.taskhash with
          | none =>
              apply harmless_of_miss missing
              · simp [Message.ask, given]
              · simp [handled, known, newUnihash, equivalent, given,
                  Message.noReply]
                rfl
              · simp [handled, newUnihash, equivalent, given]
              · rfl
          | some found =>
              have asked : (Message.report data user created true).ask client =
                  some (.full found) := by
                simp [Message.ask, given]
              have answered : handle (some client) db
                  (.report data user created true) =
                    some (.reported data.task found.unihash,
                      inserted.addUnihash data.task found.unihash) := by
                simp [handled, known, newUnihash, equivalent, given]
              have stored : Message.Stored
                  (inserted.addUnihash data.task found.unihash) (.full found)
                  (.report data user created true) := by
                rw [Message.Stored, Database.unihash_addUnihash_self, kept,
                  known]
                rfl
              refine iff_of_true
                ((harmless_of_row missing asked answered).mpr stored) ⟨?_, ?_⟩
              · simp [Message.needsRow]
              · simp [Message.inserts]

/-- Misses of the upstream server are harmless if and only if there is a row
where one is needed, and the rows it has fit into the local tables. -/
theorem harmless_iff_covered :
    Harmless client db message ↔ Covered client db message := by
  match message with
  | .get task => exact harmless_get task
  | .getAll task => exact harmless_getAll task
  | .getOuthash method outhash taskhash withUnihash =>
      exact harmless_getOuthash method outhash taskhash withUnihash
  | .report data user created false =>
      exact harmless_reportReadonly data user created
  | .report data user created true => exact harmless_report data user created

/-- The upstream server has no unihash for a task, and the handler of `get`
raises. -/
theorem not_harmless_get :
    ¬ Harmless ⟨fun _ => none, fun _ => none, fun _ _ _ => none⟩ Database.empty
      (.get ⟨"method".toList, "taskhash".toList⟩) := by
  intro harmless
  exact absurd harmless.answered (by decide)

end Main

end Upstream

end Nvbmc.HashServ
