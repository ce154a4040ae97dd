import Nvbmc.FpgaRegtbl.AlertFiles

/-!
# Queries and assertions

`get_alert_status` one command at a time.  Between any two commands the hardware
may assert alerts.
-/

namespace Nvbmc.FpgaRegtbl

open Nvbmc.Library

/-- The platform: `REG_LIST`, `REGTBL_PAGES`, whether `SEC_REGTBL_BUS` is set,
and the patterns of its shell. -/
structure Table where
  rows : List Register
  pages : ℕ
  secondary : Bool
  glob : Globbing

structure Query where
  name : Text
  device : ℕ
  isFileName : '/' ∉ name

def Query.file (query : Query) : Text :=
  alertFile query.name query.device

/-- The bytes of the two register tables that have been read. -/
structure Dump where
  primary : List (BitVec 8)
  secondary : List (BitVec 8)

/-- The next command of a query. -/
inductive Phase where
  | idle
  /-- `i2ctransfer` of a page. -/
  | dumping (query : Query) (module : Module) (page : ℕ) (dump : Dump)
  /-- The file commands of `dump_all_alerts` for a register, the registers after
  it, then `ls`. -/
  | caching (query : Query) (dump : Dump) (rows : List Register)
      (commands : List FileCommand)
  /-- An attempt of `clear_all_alerts`. -/
  | clearing (query : Query) (dump : Dump) (attempt : ℕ)
  /-- The file test of `get_dev_alert`. -/
  | testing (query : Query)
  /-- The `rm` of `get_dev_alert`. -/
  | removing (query : Query)

structure State where
  hardware : Memory
  /-- The directory `alert_cache`. -/
  files : List Text
  phase : Phase
  answers : List (Query × Bool)

def State.initial : State where
  hardware := ⟨0, 0⟩
  files := []
  phase := .idle
  answers := []

def Memory.page (hardware : Memory) (module : Module) (page : ℕ) :
    List (BitVec 8) :=
  (List.range 256).map fun byte =>
    BitVec.ofNat 8 (hardware.data module >>> (8 * (256 * page + byte)))

def Dump.read (dump : Dump) (hardware : Memory) (module : Module) (page : ℕ) :
    Dump :=
  match module with
  | .primary =>
      { dump with primary := dump.primary ++ hardware.page module page }
  | .secondary =>
      { dump with secondary := dump.secondary ++ hardware.page module page }

def Memory.assert (hardware : Memory) (module : Module) (bit : ℕ) : Memory :=
  match module with
  | .primary => { hardware with primary := hardware.primary ||| 1 <<< bit }
  | .secondary =>
      { hardware with secondary := hardware.secondary ||| 1 <<< bit }

inductive Action where
  | assert (row device : ℕ)
  | query (query : Query)
  /-- The next command of the query that is running. -/
  | command
  /-- The next command fails, if it is an `i2ctransfer` or `clear_all_alerts`.
  -/
  | fail

namespace Table

variable (table : Table)

/-- The register of a row if the platform has the device. -/
def asserted (row device : ℕ) : Option Register :=
  (table.rows[row]?).filter fun register =>
    decide (register.HasDevice device ∧
      ((register.slot device).1 = .secondary → table.secondary))

/-- What follows the pages that have been read. -/
def nextPage (query : Query) (module : Module) (page : ℕ) (dump : Dump) :
    Phase :=
  if page < table.pages then .dumping query module page dump
  else if module = .primary ∧ table.secondary ∧ 0 < table.pages then
    .dumping query .secondary 0 dump
  else .caching query dump table.rows []

def command (state : State) : State :=
  match state.phase with
  | .idle => state
  | .dumping query module page dump =>
      { state with
        phase := table.nextPage query module (page + 1)
          (dump.read state.hardware module page) }
  | .caching query dump rows (command :: commands) =>
      { state with
        files := command.run table.glob state.files
        phase := .caching query dump rows commands }
  | .caching query dump (row :: rows) [] =>
      match row.alertDevices 64 (dumpText dump.primary)
          (dumpText dump.secondary) with
      | some devices =>
          { state with
            phase := .caching query dump rows (alertCommands row.name devices) }
      -- 64 rounds were not enough: the loop over the mask does not end.
      | none => state
  | .caching query dump [] [] =>
      { state with
        phase :=
          if state.files = [] then .testing query else .clearing query dump 1 }
  | .clearing query _ _ =>
      { state with hardware := ⟨0, 0⟩, phase := .testing query }
  | .testing query =>
      { state with
        answers := state.answers ++ [(query, decide (query.file ∈ state.files))]
        phase := .removing query }
  | .removing query =>
      { state with
        files := state.files.filter fun file => file ≠ query.file
        phase := .idle }

def perform (state : State) : Action → State
  | .assert row device =>
      match table.asserted row device with
      | some register =>
          let slot := register.slot device
          { state with
            hardware := state.hardware.assert slot.1 (register.bit slot.2) }
      | none => state
  | .query query =>
      match state.phase with
      | .idle =>
          { state with
            phase :=
              if state.files = [] then
                table.nextPage query .primary 0 ⟨[], []⟩
              else .testing query }
      | _ => state
  | .command => table.command state
  | .fail =>
      match state.phase with
      | .dumping _ _ _ _ => { state with phase := .idle }
      | .clearing query dump attempt =>
          { state with
            -- `clear_alerts failed but continue`
            phase :=
              if attempt < 3 then .clearing query dump (attempt + 1)
              else .testing query }
      | _ => state

end Table

structure Assertion where
  register : Register
  device : ℕ
  /-- Its bit has not been cleared since. -/
  live : Bool
  /-- Its file has been made, or was there when its bit was cleared, and has not
  been removed since. -/
  held : Bool
  answers : ℕ

def Assertion.file (assertion : Assertion) : Text :=
  alertFile assertion.register.name assertion.device

def Assertion.observe (glob : Globbing) (assertion : Assertion)
    (state : State) : Assertion :=
  match state.phase with
  | .caching _ _ _ (.removeAll pattern :: _) =>
      { assertion with
        held := assertion.held && !glob.takes pattern assertion.file }
  | .caching _ _ _ (.touch file :: _) =>
      { assertion with
        held := assertion.held ||
          (assertion.live && decide (file = assertion.file)) }
  | .clearing _ _ _ =>
      { assertion with
        live := false
        held := assertion.held ||
          (assertion.live && decide (assertion.file ∈ state.files)) }
  | .testing query =>
      if assertion.held ∧ query.file = assertion.file ∧
          query.file ∈ state.files then
        { assertion with answers := assertion.answers + 1 }
      else assertion
  | .removing query =>
      if query.file = assertion.file then { assertion with held := false }
      else assertion
  | _ => assertion

structure Monitored where
  state : State
  assertions : List Assertion

def Monitored.initial : Monitored :=
  ⟨.initial, []⟩

def Monitored.perform (table : Table) (monitored : Monitored)
    (action : Action) : Monitored where
  state := table.perform monitored.state action
  assertions :=
    match action with
    | .assert row device =>
        match table.asserted row device with
        | some register =>
            monitored.assertions ++ [⟨register, device, true, false, 0⟩]
        | none => monitored.assertions
    | .command =>
        monitored.assertions.map fun assertion =>
          assertion.observe table.glob monitored.state
    | _ => monitored.assertions

/-- An assertion is set in the hardware, cached, or has been answered exactly
once; it has never been answered twice. -/
structure Accounted (state : State) (assertion : Assertion) : Prop where
  somewhere :
    (assertion.live ∧
      assertion.register.IsSet state.hardware assertion.device) ∨
    (assertion.held ∧ assertion.file ∈ state.files) ∨
    assertion.answers = 1
  once : assertion.answers ≤ 1

/-- No assertion is lost or answered twice all along a run. -/
def AccountedAlong (table : Table) : Monitored → List Action → Prop
  | monitored, [] =>
      ∀ assertion ∈ monitored.assertions, Accounted monitored.state assertion
  | monitored, action :: actions =>
      (∀ assertion ∈ monitored.assertions,
        Accounted monitored.state assertion) ∧
      AccountedAlong table (monitored.perform table action) actions

/-- A dump shows an alert, and no later register removes its file. -/
def Kept (table : Table) (dump : Dump) (name : Text) (device : ℕ) : Prop :=
  ∃ row later, row :: later <:+ table.rows ∧ row.name = name ∧
    row.Finds dump.primary dump.secondary device ∧
    ∀ other ∈ later,
      ¬ table.glob.takes (alertPattern other.name) (alertFile name device)

/-- When the alerts are cleared, those that are asserted have been dumped and
kept. -/
def Caught (table : Table) (monitored : Monitored) : Action → Prop
  | .command =>
      match monitored.state.phase with
      | .clearing _ dump _ =>
          ∀ assertion ∈ monitored.assertions, assertion.live →
            Kept table dump assertion.register.name assertion.device
      | _ => True
  | _ => True

def CaughtAlong (table : Table) : Monitored → List Action → Prop
  | _, [] => True
  | monitored, action :: actions =>
      Caught table monitored action ∧
        CaughtAlong table (monitored.perform table action) actions

/-- The last attempt of `clear_alerts` does not fail. -/
def Clears (state : State) : Action → Bool
  | .fail =>
      match state.phase with
      | .clearing _ _ attempt => attempt < 3
      | _ => true
  | _ => true

def ClearsAlong (table : Table) : State → List Action → Bool
  | _, [] => true
  | state, action :: actions =>
      Clears state action && ClearsAlong table (table.perform state action)
        actions

end Nvbmc.FpgaRegtbl
