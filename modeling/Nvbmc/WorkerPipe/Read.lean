import Nvbmc.Library.Dict
import Nvbmc.Library.Find
import Nvbmc.Library.Text

/-!
# The worker pipe

`runQueuePipe` cuts the bytes of a worker into frames.  The pickles, and what
the run queue reads off an object, are parameters.
-/

namespace Nvbmc.WorkerPipe

open Nvbmc.Library

abbrev Bytes := List UInt8

def ascii (text : String) : Bytes :=
  text.toList.map fun char => UInt8.ofNat char.toNat

/-- What `pickle.loads` does. -/
inductive Loaded (α : Type) where
  | object (object : α)
  /-- An `UnpicklingError` that speaks of truncated data. -/
  | truncated
  /-- Another exception. -/
  | failed

structure Objects (α : Type) where
  dumps : α → Bytes
  loads : Bytes → Loaded α
  /-- `task, status = object` with a text as task; `none` when this raises. -/
  unpack : α → Option (Text × α)
  /-- The `taskid` and the `unihash` of a `taskUniHashUpdate`. -/
  uniHashUpdate : α → Option (Text × Text)

/-- A proper prefix of a pickle is truncated and a pickle is read back. -/
structure Objects.Lawful {α : Type} (objects : Objects α) : Prop where
  complete : ∀ object, objects.loads (objects.dumps object) = .object object
  truncated : ∀ object bytes, bytes <+: objects.dumps object →
    bytes ≠ objects.dumps object → objects.loads bytes = .truncated

/-- `split_tid_mcfn`. -/
structure Tid where
  mc : Text
  fn : Text
  taskname : Text
  mcfn : Text

/-- `none` for an `IndexError`. -/
def splitTidMcfn (tid : Text) : Option Tid :=
  let elems := tid.splitOn ':'
  if "mc:".toList <+: tid ∧ 2 ≤ tid.count ':' then
    let mc := elems.getD 1 []
    let fn := [':'].intercalate (elems.drop 2).dropLast
    some ⟨mc, fn, elems.getLastD [], "mc:".toList ++ mc ++ ":".toList ++ fn⟩
  else if ':' ∈ tid then
    -- `tid.rsplit(":", 1)`
    let fn := [':'].intercalate elems.dropLast
    some ⟨[], fn, elems.getLastD [], fn⟩
  else none

inductive Delivery (α : Type) where
  /-- `bb.event.fire_from_worker`. -/
  | event (object : α)
  /-- `runqueue_process_waitpid`. -/
  | exitcode (task : Text) (status : α) (fakerootlog : Option Text)

structure Pipe (α : Type) where
  queue : Bytes
  fakerootlogs : Option (Dict Text Text)
  delivered : List (Delivery α)
  updatedTaskhashQueue : List (Text × Text)

def eventStart : Bytes := ascii "<event>"

def eventEnd : Bytes := ascii "</event>"

def exitcodeStart : Bytes := ascii "<exitcode>"

def exitcodeEnd : Bytes := ascii "</exitcode>"

section Read

variable {α : Type} (objects : Objects α)

/-- What the search for the end of an event comes to. -/
inductive Loading (α : Type) where
  | waiting
  | loaded (event : α) (index : ℕ)
  /-- `bb.msg.fatal`. -/
  | fatal

/-- Unpickles up to one end tag after another while the data is truncated. -/
def loadEvent (queue : Bytes) (start : ℕ) : Loading α :=
  match _ : find eventEnd queue start with
  | none => .waiting
  | some index =>
      match objects.loads ((queue.take index).drop 7) with
      | .object event => .loaded event index
      | .truncated => loadEvent queue (index + 1)
      | .failed => .fatal
termination_by queue.length + 1 - start
decreasing_by
  rename_i found
  have position := foundAt_of_find found
  have after := position.after
  have within := position.within
  omega

namespace Pipe

variable (pipe : Pipe α)

def fire (event : α) (index : ℕ) : Pipe α :=
  { pipe with
    queue := pipe.queue.drop (index + 8)
    delivered := pipe.delivered ++ [.event event]
    updatedTaskhashQueue :=
      pipe.updatedTaskhashQueue ++ (objects.uniHashUpdate event).toList }

/-- The loop over events, `none` when it raises. -/
def readEvents (pipe : Pipe α) : Option (Pipe α) :=
  if _ : eventStart <+: pipe.queue then
    match loadEvent objects pipe.queue 0 with
    | .waiting => some pipe
    | .fatal => none
    | .loaded event index => readEvents (pipe.fire objects event index)
  else some pipe
termination_by pipe.queue.length
decreasing_by
  rename_i started
  have positive : 0 < eventStart.length := by decide
  have length := started.length_le
  simp only [fire, List.length_drop]
  omega

/-- `none` when the dictionary is missing, empty or lacks the recipe. -/
def fakerootlog (taskfn : Text) : Option Text :=
  if taskfn = [] then none
  else pipe.fakerootlogs.bind fun logs => logs.get? taskfn

def processWaitpid (task : Text) (status : α) (taskfn : Text) (index : ℕ) :
    Pipe α :=
  { pipe with
    queue := pipe.queue.drop (index + 11)
    delivered := pipe.delivered ++
      [.exitcode task status (pipe.fakerootlog taskfn)] }

/-- The loop over exit codes, `none` when it raises. -/
def readExitcodes (pipe : Pipe α) : Option (Pipe α) :=
  if _ : exitcodeStart <+: pipe.queue then
    match find exitcodeEnd pipe.queue 0 with
    | none => some pipe
    | some index =>
        match objects.loads ((pipe.queue.take index).drop 10) with
        | .object object =>
            match objects.unpack object with
            | none => none
            | some (task, status) =>
                match splitTidMcfn task with
                | none => none
                | some tid =>
                    readExitcodes
                      (pipe.processWaitpid task status tid.mcfn index)
        -- Truncated data is fatal here.
        | .truncated | .failed => none
  else some pipe
termination_by pipe.queue.length
decreasing_by
  rename_i started
  have positive : 0 < exitcodeStart.length := by decide
  have length := started.length_le
  simp only [processWaitpid, List.length_drop]
  omega

/-- The outer loop. -/
def readFrames (pipe : Pipe α) : Option (Pipe α) :=
  match (pipe.readEvents objects).bind (readExitcodes objects) with
  | none => none
  | some after =>
      -- `found`: a frame has been cut off the queue.
      if after.queue.length < pipe.queue.length then readFrames after
      else some after
termination_by pipe.queue.length

/-- One call of `read`, with the bytes that are there to be read. -/
def read (bytes : Bytes) : Option (Pipe α) :=
  readFrames objects { pipe with queue := pipe.queue ++ bytes }

/-- Calls of `read`, one after the other. -/
def reads (pipe : Pipe α) : List Bytes → Option (Pipe α)
  | [] => some pipe
  | bytes :: later =>
      match pipe.read objects bytes with
      | none => none
      | some after => reads after later

end Pipe

end Read

end Nvbmc.WorkerPipe
