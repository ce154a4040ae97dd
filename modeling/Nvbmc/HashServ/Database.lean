import Mathlib.Data.List.Lex
import Mathlib.Data.Char
import Nvbmc.Library.Extremum
import Nvbmc.Library.Text

/-!
# The hash equivalence database

The two tables `unihashes_v3` and `outhashes_v2` and the `gc-mark` entry of the
configuration, with the statements the server runs on them.  `created` is the
text of a time stamp, so that it is ordered as a text.
-/

namespace Nvbmc.HashServ

open Nvbmc.Library

structure UnihashRow where
  /-- The `AUTOINCREMENT` key. -/
  id : ℕ
  method : Text
  taskhash : Text
  unihash : Text
  gcMark : Text
  deriving DecidableEq

/-- The optional columns of an outhash row. -/
structure OuthashInfo where
  owner : Option Text
  pn : Option Text
  pv : Option Text
  pr : Option Text
  task : Option Text
  outhashSiginfo : Option Text
  deriving DecidableEq

structure OuthashRow where
  method : Text
  taskhash : Text
  outhash : Text
  created : Option Text
  info : OuthashInfo
  deriving DecidableEq

structure Database where
  unihashes : List UnihashRow
  outhashes : List OuthashRow
  /-- The next `AUTOINCREMENT` key of `unihashes_v3`. -/
  nextId : ℕ
  /-- The value of `gc-mark`, `none` when it is missing or NULL. -/
  gcMark : Option Text

/-- A `where` dictionary: the columns of both tables it mentions. -/
structure Condition where
  method : Option Text
  taskhash : Option Text
  unihash : Option Text
  gcMark : Option Text
  outhash : Option Text
  created : Option Text
  info : OuthashInfo

/-- `_make_condition_statement` applied to a row: each wanted column with the
row's value.  A statement without any wanted column is not run. -/
def wanted (columns : List (Option Text × Option Text)) : Bool :=
  columns.any (·.1.isSome) &&
    columns.all fun column => column.1.isNone || column.1 = column.2

def Condition.unihashRow (condition : Condition) (row : UnihashRow) : Bool :=
  wanted [(condition.method, row.method), (condition.taskhash, row.taskhash),
    (condition.unihash, row.unihash), (condition.gcMark, row.gcMark)]

def Condition.outhashRow (condition : Condition) (row : OuthashRow) : Bool :=
  wanted [(condition.method, row.method), (condition.taskhash, row.taskhash),
    (condition.outhash, row.outhash), (condition.created, row.created),
    (condition.info.owner, row.info.owner), (condition.info.pn, row.info.pn),
    (condition.info.pv, row.info.pv), (condition.info.pr, row.info.pr),
    (condition.info.task, row.info.task),
    (condition.info.outhashSiginfo, row.info.outhashSiginfo)]

namespace Database

variable (db : Database)

def empty : Database where
  unihashes := []
  outhashes := []
  nextId := 1
  gcMark := none

def findUnihash (method taskhash : Text) : Option UnihashRow :=
  db.unihashes.find? fun row => row.method = method ∧ row.taskhash = taskhash

/-- `get_equivalent`: the unihash of a task. -/
def getEquivalent (method taskhash : Text) : Option Text :=
  (db.findUnihash method taskhash).map (·.unihash)

/-- `insert_unihash`: `INSERT OR IGNORE` with the current mark. -/
def insertUnihash (method taskhash unihash : Text) : Database :=
  match db.findUnihash method taskhash with
  | some _ => db
  | none =>
      { db with
        unihashes := db.unihashes ++
          [⟨db.nextId, method, taskhash, unihash, db.gcMark.getD []⟩]
        nextId := db.nextId + 1 }

def hasOuthash (method taskhash outhash : Text) : Bool :=
  db.outhashes.any fun row =>
    row.method = method ∧ row.taskhash = taskhash ∧ row.outhash = outhash

/-- `insert_outhash`: `INSERT OR IGNORE`.  Its answer is True also for a row
that is there already: the `lastrowid` of its cursor is None before the
statement and a number behind it. -/
def insertOuthash (row : OuthashRow) : Database :=
  if db.hasOuthash row.method row.taskhash row.outhash then db
  else { db with outhashes := db.outhashes ++ [row] }

/-- `ORDER BY created ASC`; NULL comes first. -/
def older (first second : OuthashRow × Text) : Bool :=
  match first.1.created, second.1.created with
  | none, none => false
  | none, some _ => true
  | some _, none => false
  | some first, some second => first < second

/-- The `INNER JOIN` of the outhash rows that meet a condition with their
unihashes. -/
def joined (condition : OuthashRow → Bool) : List (OuthashRow × Text) :=
  (db.outhashes.filter condition).filterMap fun row =>
    (db.getEquivalent row.method row.taskhash).map fun unihash => (row, unihash)

/-- `ORDER BY created ASC LIMIT 1` on the join. -/
def oldest (condition : OuthashRow → Bool) : Option (OuthashRow × Text) :=
  extremum older (db.joined condition)

/-- `get_equivalent_for_outhash`. -/
def getEquivalentForOuthash (method outhash taskhash : Text) : Option Text :=
  (db.oldest fun row => row.method = method ∧ row.outhash = outhash ∧
    row.taskhash ≠ taskhash).map (·.2)

/-- `get_unihash_by_taskhash_full`. -/
def getUnihashByTaskhashFull (method taskhash : Text) : Option Text :=
  (db.oldest fun row =>
    row.method = method ∧ row.taskhash = taskhash).map (·.2)

/-- `remove`. -/
def remove (condition : Condition) : Database :=
  { db with
    outhashes := db.outhashes.filter (!condition.outhashRow ·)
    unihashes := db.unihashes.filter (!condition.unihashRow ·) }

/-- `gc_mark`. -/
def markRows (mark : Text) (condition : Condition) : Database :=
  { db with
    gcMark := some mark
    unihashes := db.unihashes.map fun row =>
      if condition.unihashRow row then { row with gcMark := mark } else row }

/-- `gc_sweep`.  A comparison with NULL deletes nothing. -/
def sweep : Database :=
  { db with
    gcMark := none
    unihashes :=
      match db.gcMark with
      | none => db.unihashes
      | some mark => db.unihashes.filter (·.gcMark = mark) }

/-- `handle_gc_sweep`; an `InvokeError` leaves the database. -/
def handleGcSweep (mark : Text) : Option Database :=
  match db.gcMark with
  | none => none
  | some currentMark =>
      if currentMark = [] ∨ mark ≠ currentMark then none else some db.sweep

end Database

end Nvbmc.HashServ
