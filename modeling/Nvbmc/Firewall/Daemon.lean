import Nvbmc.Firewall.Validators

/-!
# The firewall daemon

`add_iptables_rule` and `del_iptables_rule`, with the two chains of the kernel
they change.  Whether a run of `iptables` fails is part of the call.
-/

namespace Nvbmc.Firewall

open Nvbmc.Library

abbrev Command := List Value

/-- What follows the chain, and the position, on a command line. -/
abbrev Rule := List Value

/-- The chains of the `mangle` table. -/
structure Chains where
  prerouting : List Rule
  postrouting : List Rule

namespace Chains

/-- `-I chain 1 rule`. -/
def insert (chains : Chains) (chain : Value) (rule : Rule) : Option Chains :=
  if chain = .lit "PREROUTING" then
    some { chains with prerouting := rule :: chains.prerouting }
  else if chain = .lit "POSTROUTING" then
    some { chains with postrouting := rule :: chains.postrouting }
  else none

/-- `-D chain rule`: removes an equal rule and fails if there is none. -/
def delete (chains : Chains) (chain : Value) (rule : Rule) : Option Chains :=
  if chain = .lit "PREROUTING" ∧ rule ∈ chains.prerouting then
    some { chains with prerouting := chains.prerouting.erase rule }
  else if chain = .lit "POSTROUTING" ∧ rule ∈ chains.postrouting then
    some { chains with postrouting := chains.postrouting.erase rule }
  else none

/-- `iptables` on the arguments behind `-t mangle`. -/
def iptables (chains : Chains) (command : Command) : Option Chains :=
  match command.drop 7 with
  | operation :: chain :: arguments =>
      if operation = .lit "-I" then
        match arguments with
        | _ :: rule => chains.insert chain rule
        | [] => none
      else if operation = .lit "-D" then chains.delete chain arguments
      else none
  | _ => none

end Chains

/-- An argument `subprocess.run` accepts. -/
def Value.passable : Value → Bool
  | .text content => Char.ofNat 0 ∉ content
  | _ => false

inductive RunResult where
  /-- Another exception than `CalledProcessError`; nothing has run. -/
  | raised
  | failed
  | done (chains : Chains)

/-- `subprocess.run(command, check=True)`. -/
def runCommand (chains : Chains) (command : Command) (fails : Bool) :
    RunResult :=
  if command.all Value.passable then
    if fails then .failed
    else
      match chains.iptables command with
      | some after => .done after
      | none => .failed
  else .raised

def initMark : ℕ := 0x02200000

/-- The mark of the rule with an index: the index in the low two bytes, the
verdict in bit 26. -/
def ruleMark (index verdict : ℕ) : ℕ :=
  let markData := (initMark &&& 0xFFFF0000) ||| (index &&& 0xFFFF)
  let mask := 1 <<< 26
  -- `mark_data & ~mask`
  Nat.ldiff markData mask ||| (verdict <<< 26)

def option (name : String) (value : Value) : List Value :=
  if value.given then [.lit name, value] else []

def matchOptions (fields : Fields) : List Value :=
  option "-d" fields.dstIp ++ option "-s" fields.srcIp ++
    option "-p" fields.proto ++ option "--dport" fields.dstPort ++
    option "--sport" fields.srcPort

/-- `pkt_res`, `none` when it is left unassigned. -/
def packetResult (action : Value) : Option ℕ :=
  if action = .lit "DENY" then some 0
  else if action = .lit "ACCEPT" then some 1
  else none

def iptablesPrefix : Command :=
  [.lit "ip", .lit "netns", .lit "exec", .lit "defeip", .lit "iptables",
    .lit "-t", .lit "mangle"]

/-- The rule of the `PREROUTING` chain. -/
def divertRule (fields : Fields) : Rule :=
  [.lit "-i", .lit "eip0"] ++ matchOptions fields ++ [.lit "-j", .lit "DIVERT"]

/-- The rule of the `POSTROUTING` chain. -/
def markRule (fields : Fields) (mark : ℕ) : Rule :=
  matchOptions fields ++
    [.lit "-j", .lit "MARK", .lit "--set-mark", .text (hex mark)]

def insertCommand (chain : String) (rule : Rule) : Command :=
  iptablesPrefix ++ [.lit "-I", .lit chain, .lit "1"] ++ rule

/-- The commands of `add_iptables_rule`. -/
def ruleCommands (fields : Fields) (mark : ℕ) : Command × Command :=
  (insertCommand "PREROUTING" (divertRule fields),
    insertCommand "POSTROUTING" (markRule fields mark))

section Runs

variable (chains : Chains) (rule : Rule) (fails : Bool)

theorem iptables_insert_prerouting :
    chains.iptables (insertCommand "PREROUTING" rule) =
      some { chains with prerouting := rule :: chains.prerouting } := by
  simp [Chains.iptables, insertCommand, iptablesPrefix, Chains.insert]

theorem iptables_insert_postrouting :
    chains.iptables (insertCommand "POSTROUTING" rule) =
      some { chains with postrouting := rule :: chains.postrouting } := by
  have different : Value.lit "POSTROUTING" ≠ .lit "PREROUTING" := by decide
  simp [Chains.iptables, insertCommand, iptablesPrefix, Chains.insert,
    different]

variable {command : Command}

theorem runCommand_raised (unpassable : ¬ command.all Value.passable) :
    runCommand chains command fails = .raised := by
  rw [runCommand, if_neg unpassable]

theorem runCommand_failed (passable : command.all Value.passable) :
    runCommand chains command true = .failed := by
  simp [runCommand, passable]

theorem runCommand_done (passable : command.all Value.passable)
    {after : Chains} (runs : chains.iptables command = some after) :
    runCommand chains command false = .done after := by
  simp [runCommand, passable, runs]

theorem passable_insertCommand (chain : String) :
    (insertCommand chain rule).all Value.passable =
      ((Value.lit chain).passable && rule.all Value.passable) := by
  have literals : iptablesPrefix.all Value.passable = true := by decide
  have insert : (Value.lit "-I").passable = true := by decide
  have first : (Value.lit "1").passable = true := by decide
  simp [insertCommand, literals, insert, first]

end Runs

inductive Answer where
  | added
  | errorAdding
  | needArguments
  | errorExtracting
  | unknownIndex
  | deleted
  | errorDeleting
  /-- An exception the handler does not catch. -/
  | raised
  deriving DecidableEq

def Answer.isError : Answer → Bool
  | .added | .deleted => false
  | _ => true

/-- The text of an answer, without the exception an error ends with. -/
def Answer.message : Answer → String
  | .added => "Iptables rule added successfully"
  | .errorAdding => "Error adding iptables rule: "
  | .needArguments =>
      "Failure: need to pass two compulsary arguments as part of JSON data" ++
        "(1.dst_ip/src_ip/proto/dst_port/src_port, 2.action)"
  | .errorExtracting => "Error in extracting input data"
  | .unknownIndex => "iprule_idx does not exist in dict"
  | .deleted => "iptables rule deleted successfully"
  | .errorDeleting => "Error deleting iptables rule: "
  | .raised => ""

theorem Answer.message_injective : Function.Injective Answer.message := by
  intro first second same
  cases first <;> cases second <;> first | rfl | exact absurd same (by decide)

structure Daemon where
  chains : Chains
  /-- `iptable_rule_dict`. -/
  rules : Dict ℕ (Command × Command)
  /-- `iptbl_idx`. -/
  index : ℕ
  /-- The rule ids written to the character device. -/
  sent : List ℕ

structure Response where
  answer : Answer
  daemon : Daemon
  ran : List Command

/-- Which runs of `iptables` fail during a request. -/
structure Failures where
  first : Bool
  second : Bool

namespace Daemon

def initial : Daemon where
  chains := ⟨[], []⟩
  rules := []
  index := 1
  sent := []

variable (daemon : Daemon)

/-- Runs two commands; `done` are the chains when both have succeeded. -/
def runBoth (commands : Command × Command) (failures : Failures)
    (onFailure : Answer) (onSuccess : Chains → Response) : Response :=
  match runCommand daemon.chains commands.1 failures.first with
  | .raised => ⟨.raised, daemon, []⟩
  | .failed => ⟨onFailure, daemon, [commands.1]⟩
  | .done chains =>
      let after := { daemon with chains := chains }
      match runCommand chains commands.2 failures.second with
      | .raised => ⟨.raised, after, [commands.1]⟩
      | .failed => ⟨onFailure, after, [commands.1, commands.2]⟩
      | .done chains => onSuccess chains

def addIptablesRule (data : Dict Text Value) (failures : Failures) : Response :=
  let fields := Fields.ofData data
  match checkDataValidity fields with
  | none => ⟨.raised, daemon, []⟩
  | some 2 =>
      match packetResult fields.action with
      -- `UnboundLocalError`
      | none => ⟨.raised, daemon, []⟩
      | some verdict =>
          let commands := ruleCommands fields (ruleMark daemon.index verdict)
          daemon.runBoth commands failures .errorAdding fun chains =>
            ⟨.added, { daemon with
              chains := chains
              rules := daemon.rules.set daemon.index commands
              index := daemon.index + 1 }, [commands.1, commands.2]⟩
  | some _ => ⟨.needArguments, daemon, []⟩

/-- `int(data.get('iprule_idx', 0))`. -/
def requestedIndex (data : Dict Text Value) : Option ℤ :=
  match field data "iprule_idx" with
  | .text text => int? text
  | .integer value => some value
  | .float value => some (value.num.tdiv value.den)
  | .infinite => none

/-- `del command[9]` and `command[7] = '-D'`, `none` for an `IndexError`. -/
def deleteForm (command : Command) : Option Command :=
  if 9 < command.length then some ((command.eraseIdx 9).set 7 (.lit "-D"))
  else none

def delIptablesRule (data : Dict Text Value) (failures : Failures) : Response :=
  match requestedIndex data with
  | none => ⟨.errorExtracting, daemon, []⟩
  | some requested =>
      match requested.toNat?.bind daemon.rules.get?, requested.toNat? with
      | some (first, second), some index =>
          match deleteForm second with
          | none => ⟨.raised, daemon, []⟩
          | some secondDelete =>
              match deleteForm first with
              | none =>
                  let rules := daemon.rules.set index
                    (first, second.eraseIdx 9)
                  ⟨.raised, { daemon with rules := rules }, []⟩
              | some firstDelete =>
                  -- The lists in the dictionary are edited in place.
                  let commands := (firstDelete, secondDelete)
                  let edited := { daemon with
                    rules := daemon.rules.set index commands }
                  edited.runBoth commands failures .errorDeleting fun chains =>
                    ⟨.deleted, { daemon with
                      chains := chains
                      rules := daemon.rules.del index
                      sent := daemon.sent ++ [index] },
                      [commands.1, commands.2]⟩
      | _, _ => ⟨.unknownIndex, daemon, []⟩

end Daemon

/-- A request and the runs of `iptables` that fail during it. -/
inductive Call where
  | add (data : Dict Text Value) (failures : Failures)
  | delete (data : Dict Text Value) (failures : Failures)

def Daemon.handle (daemon : Daemon) : Call → Response
  | .add data failures => daemon.addIptablesRule data failures
  | .delete data failures => daemon.delIptablesRule data failures

end Nvbmc.Firewall
