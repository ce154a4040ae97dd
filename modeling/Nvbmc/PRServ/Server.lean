import Nvbmc.Library.Runs
import Nvbmc.PRServ.NoHistory

/-!
# A PR server with an upstream server

`handle_get_pr` asks the upstream server up to four times and other requests
run while it waits.  `Waiting` is where a handler waits, with the values it
keeps; `begin` and `resume` are its parts up to the next wait.  An answer is
computed when the upstream server handles the question and used when the
handler resumes; the upstream table may grow and other handlers may run in
between.
-/

namespace Nvbmc.PRServ

/-- Where a handler waits for the upstream server. -/
inductive Waiting where
  /-- The first `max_package_pr`, with the local value of the checksum. -/
  | maxPackage (request : Request) (value : Option Revision)
  /-- `test_pr` for a checksum that is known locally. -/
  | testKnown (request : Request) (existingValue upstreamMax : Revision)
  | testPackage (request : Request)
  /-- `test_pr` for a checksum that is new. -/
  | testNew (request : Request)
  /-- The second `max_package_pr`. -/
  | maxNew (request : Request)

def Waiting.Answer : Waiting → Type
  | .testPackage _ => Bool
  | _ => Option Revision

/-- What a handler does until it waits or ends. -/
inductive Outcome where
  | done (value : Revision) (table : PRTable)
  | waits (waiting : Waiting)
  /-- An exception. -/
  | failed

namespace PRTable

variable (ordering : RowOrder) (table : PRTable)

/-- The upstream server's answer. -/
def ask : (waiting : Waiting) → waiting.Answer
  | .maxPackage request _ => table.findPackageMaxValue ordering request.package
  | .testKnown request _ _ =>
      table.findValue ordering request.package request.checksum false
  | .testPackage request => table.testPackage ordering request.package
  | .testNew request =>
      table.findValue ordering request.package request.checksum false
  | .maxNew request => table.findPackageMaxValue ordering request.package

def getValueDone (request : Request) : Outcome :=
  let result := table.getValue ordering request.package request.checksum
    request.history
  .done result.1 result.2

def storeDone (request : Request) (value : Revision) : Outcome :=
  .done value (if table.readOnly then table
    else table.storeValue ordering request.package request.checksum value)

/-- `handle_get_pr` up to its first wait. -/
def beginGetPr (hasUpstream : Bool) (request : Request) : Outcome :=
  if hasUpstream then
    .waits (.maxPackage request (table.findValue ordering request.package
      request.checksum request.history))
  else table.getValueDone ordering request

/-- The end of the branch for a known checksum without history. -/
def knownDone (request : Request) (existingValue value : Revision) : Outcome :=
  if value ≠ existingValue then table.storeDone ordering request value
  else .done value table

/-- The branch for a known checksum without history, up to its `test_pr`. -/
def noHistory (request : Request) (value : Revision) :
    Option Revision → Outcome
  | none => .failed
  | some upstreamMax =>
      match table.findPackageMaxValue ordering request.package with
      | none => .failed
      | some localMax =>
          let bumped :=
            if revisionSmaller value localMax then localMax.increase else value
          if revisionSmaller bumped upstreamMax then
            .waits (.testKnown request value upstreamMax)
          else table.knownDone ordering request value bumped

/-- `handle_get_pr` from an answer to its next wait. -/
def resume : (waiting : Waiting) → waiting.Answer → Outcome
  | .maxPackage request (some value), upstreamMax =>
      if request.history then table.getValueDone ordering request
      else table.noHistory ordering request value upstreamMax
  | .maxPackage request none, _ => .waits (.testPackage request)
  | .testKnown request existingValue upstreamMax, upstreamValue =>
      match (upstreamValue : Option Revision) with
      | none =>
          table.knownDone ordering request existingValue upstreamMax.dotZero
      | some _ => table.knownDone ordering request existingValue upstreamMax
  | .testPackage request, knownUpstream =>
      match (knownUpstream : Bool) with
      | false => table.getValueDone ordering request
      | true => .waits (.testNew request)
  | .testNew request, value =>
      match (value : Option Revision) with
      | some value => table.storeDone ordering request value
      | none => .waits (.maxNew request)
  | .maxNew request, upstreamMax =>
      match (upstreamMax : Option Revision) with
      -- `None + ".0"`
      | none => .failed
      | some upstreamMax => table.storeDone ordering request
          (table.findNewSubvalue ordering request.package upstreamMax)

end PRTable

structure Handler where
  waiting : Waiting
  answer : Option waiting.Answer

structure ServerState where
  table : PRTable
  upstream : Option PRTable
  handlers : List Handler

inductive Action where
  | request (request : Request)
  /-- The upstream server answers a waiting handler. -/
  | answer (index : ℕ)
  /-- An answered handler goes on. -/
  | resume (index : ℕ)
  | upstreamStores (row : Row)

def UniqueValues (rows : List Row) : Prop :=
  ∀ first ∈ rows, ∀ second ∈ rows, first.package = second.package →
    first.value = second.value → first.checksum = second.checksum

instance instDecidableUniqueValues (rows : List Row) :
    Decidable (UniqueValues rows) :=
  inferInstanceAs (Decidable (∀ first ∈ rows, ∀ second ∈ rows,
    first.package = second.package → first.value = second.value →
      first.checksum = second.checksum))

namespace ServerState

variable (ordering upstreamOrdering : RowOrder)

/-- What an outcome leaves of the handlers around it. -/
def settle (state : ServerState) (before after : List Handler) :
    Outcome → ServerState
  | .done _ table =>
      { state with table := table, handlers := before ++ after }
  | .waits waiting =>
      { state with handlers := before ++ ⟨waiting, none⟩ :: after }
  | .failed => { state with handlers := before ++ after }

/-- One step of the server, a client or the upstream server.  The upstream
server stores no value for two checksums. -/
def perform (state : ServerState) : Action → Option ServerState
  | .request request =>
      some (state.settle state.handlers [] (state.table.beginGetPr ordering
        state.upstream.isSome request))
  | .answer index =>
      match state.handlers[index]?, state.upstream with
      | some ⟨waiting, none⟩, some upstream =>
          let answered : Handler :=
            ⟨waiting, some (upstream.ask upstreamOrdering waiting)⟩
          some { state with handlers := state.handlers.set index answered }
      | _, _ => none
  | .resume index =>
      match state.handlers[index]? with
      | some ⟨waiting, some answer⟩ =>
          some (state.settle (state.handlers.take index)
            (state.handlers.drop (index + 1))
            (state.table.resume ordering waiting answer))
      | _ => none
  | .upstreamStores row =>
      match state.upstream with
      | some upstream =>
          let grown := { upstream with rows := upstream.rows ++ [row] }
          if UniqueValues grown.rows then
            some { state with upstream := some grown }
          else none
      | none => none

def Step (state : ServerState) (action : Action) (next : ServerState) : Prop :=
  perform ordering upstreamOrdering state action = some next

/-- A server with an empty table, with or without an upstream server. -/
structure Start (state : ServerState) : Prop where
  empty : state.table.rows = []
  idle : state.handlers = []
  unique : ∀ upstream ∈ state.upstream, UniqueValues upstream.rows

end ServerState

end Nvbmc.PRServ
