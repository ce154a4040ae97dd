import Mathlib.Data.List.Nodup
import Nvbmc.Firewall.RequestSafety

/-!
# The daemon and the kernel

Every request must leave the chains with exactly the rules of the dictionary,
and a request that is answered with an error must leave chains and dictionary as
they were.  A request keeps this exactly if no run of `iptables` fails but the
first one of an addition: an addition does not take its first rule back, and a
deletion edits the stored commands before it runs them.
-/

namespace Nvbmc.Firewall

open Nvbmc.Library

def ruleOf (command : Command) : Rule :=
  if command[7]? = some (.lit "-D") then command.drop 9 else command.drop 10

/-- The chains have the two rules of each entry of the dictionary. -/
structure Daemon.Agrees (daemon : Daemon) : Prop where
  prerouting : daemon.chains.prerouting.Perm
    (daemon.rules.map fun entry => ruleOf entry.2.1)
  postrouting : daemon.chains.postrouting.Perm
    (daemon.rules.map fun entry => ruleOf entry.2.2)

structure Faithful (before : Daemon) (response : Response) : Prop where
  agrees : response.daemon.Agrees
  unchanged : response.answer.isError →
    response.daemon.chains = before.chains ∧
      response.daemon.rules = before.rules

/-- Every request of a history is faithful. -/
def Consistent : Daemon → List Call → Prop
  | _, [] => True
  | daemon, call :: calls =>
      Faithful daemon (daemon.handle call) ∧
        Consistent (daemon.handle call).daemon calls

structure Fields.Runs (fields : Fields) : Prop where
  two : checkDataValidity fields = some 2
  accept : fields.action = .lit "ACCEPT"
  passable : (matchOptions fields).all Value.passable

/-- No run fails but the first one of an addition. -/
def Harmless (daemon : Daemon) : Call → Prop
  | .add data failures =>
      (Fields.ofData data).Runs → failures.first ∨ ¬ failures.second
  | .delete data failures =>
      ∀ index : ℕ, Daemon.requestedIndex data = some (index : ℤ) →
        daemon.rules.contains index → ¬ failures.first ∧ ¬ failures.second

def Undisturbed : Daemon → List Call → Prop
  | _, [] => True
  | daemon, call :: calls =>
      Harmless daemon call ∧ Undisturbed (daemon.handle call).daemon calls

section Deletion

def deleteCommand (chain : String) (rule : Rule) : Command :=
  iptablesPrefix ++ [.lit "-D", .lit chain] ++ rule

variable (chain : String) (rule : Rule)

theorem deleteForm_insertCommand :
    Daemon.deleteForm (insertCommand chain rule) =
      some (deleteCommand chain rule) := by
  simp [Daemon.deleteForm, insertCommand, deleteCommand, iptablesPrefix]

theorem passable_deleteCommand :
    (deleteCommand chain rule).all Value.passable =
      (insertCommand chain rule).all Value.passable := by
  have literals : iptablesPrefix.all Value.passable = true := by decide
  have delete : (Value.lit "-D").passable = true := by decide
  rw [passable_insertCommand]
  simp [deleteCommand, literals, delete]

theorem ruleOf_insertCommand : ruleOf (insertCommand chain rule) = rule := by
  have different : Value.lit "-I" ≠ .lit "-D" := by decide
  simp [ruleOf, insertCommand, iptablesPrefix, different]

theorem deleteCommand_ne_insertCommand :
    deleteCommand chain rule ≠ insertCommand chain rule := by
  intro same
  have seventh := congrArg (·[7]?) same
  simp only [deleteCommand, insertCommand, iptablesPrefix, List.cons_append,
    List.nil_append, List.getElem?_cons_succ,
    List.getElem?_cons_zero] at seventh
  exact absurd seventh (by decide)

variable {rule} {chains : Chains}

theorem iptables_delete_prerouting (member : rule ∈ chains.prerouting) :
    chains.iptables (deleteCommand "PREROUTING" rule) =
      some { chains with prerouting := chains.prerouting.erase rule } := by
  have different : Value.lit "-D" ≠ .lit "-I" := by decide
  simp [Chains.iptables, deleteCommand, iptablesPrefix, Chains.delete,
    different, member]

theorem iptables_delete_postrouting (member : rule ∈ chains.postrouting) :
    chains.iptables (deleteCommand "POSTROUTING" rule) =
      some { chains with postrouting := chains.postrouting.erase rule } := by
  have different : Value.lit "-D" ≠ .lit "-I" := by decide
  have other : Value.lit "POSTROUTING" ≠ .lit "PREROUTING" := by decide
  simp [Chains.iptables, deleteCommand, iptablesPrefix, Chains.delete,
    different, other, member]

end Deletion

/-- The invariant between faithful requests. -/
structure Settled (daemon : Daemon) : Prop where
  unique : daemon.rules.keys.Nodup
  below : ∀ index ∈ daemon.rules.keys, index < daemon.index
  entries : ∀ entry ∈ daemon.rules, ∃ fields mark,
    entry.2 = ruleCommands fields mark ∧
      (matchOptions fields).all Value.passable
  agrees : daemon.Agrees

section Requests

variable {daemon : Daemon} {data : Dict Text Value} {failures : Failures}

theorem Settled.initial : Settled .initial := by
  constructor
  · exact List.nodup_nil
  · simp [Daemon.initial, Dict.keys]
  · simp [Daemon.initial]
  · exact ⟨.refl _, .refl _⟩

theorem addIptablesRule_of_not_runs (refused : ¬ (Fields.ofData data).Runs) :
    (daemon.addIptablesRule data failures).answer.isError ∧
      (daemon.addIptablesRule data failures).daemon = daemon := by
  simp only [Daemon.addIptablesRule]
  split
  · exact ⟨rfl, rfl⟩
  · next two =>
      split
      · exact ⟨rfl, rfl⟩
      · next verdict found =>
          have valid := isValidAction_of_two two
          obtain ⟨accept, rfl⟩ := packetResult_eq_some valid found
          have unpassable : ¬ (matchOptions (Fields.ofData data)).all
              Value.passable := fun passable => refused ⟨two, accept, passable⟩
          have raised := runCommand_raised daemon.chains failures.first
            (not_passable_ruleCommands unpassable (ruleMark daemon.index 1))
          simp [Daemon.runBoth, raised, Answer.isError]
  · exact ⟨rfl, rfl⟩

theorem Settled.added (settled : Settled daemon) {fields : Fields}
    (passable : (matchOptions fields).all Value.passable) (mark : ℕ) :
    Settled { daemon with
      chains := ⟨divertRule fields :: daemon.chains.prerouting,
        markRule fields mark :: daemon.chains.postrouting⟩
      rules := daemon.rules.set daemon.index (ruleCommands fields mark)
      index := daemon.index + 1 } := by
  have new : daemon.index ∉ daemon.rules.keys := fun member =>
    (settled.below _ member).false
  have rules := Dict.set_of_not_mem (ruleCommands fields mark) new
  constructor
  · simp only [rules, Dict.keys, List.map_append, List.map_cons, List.map_nil]
    exact settled.unique.append (List.nodup_singleton _)
      (List.disjoint_singleton.mpr new)
  · intro index member
    rcases (Dict.mem_keys_set _ _ _ _).mp member with rfl | old
    · exact Nat.lt_succ_self _
    · exact (settled.below index old).trans (Nat.lt_succ_self _)
  · intro entry member
    simp only [rules] at member
    rcases List.mem_append.mp member with old | last
    · exact settled.entries entry old
    · rw [List.mem_singleton.mp last]
      exact ⟨fields, mark, rfl, passable⟩
  · constructor
    · simp only [rules, List.map_append]
      simp only [ruleCommands, List.map_cons, List.map_nil,
        ruleOf_insertCommand]
      exact (settled.agrees.prerouting.cons _).trans
        (List.perm_append_singleton _ _).symm
    · simp only [rules, List.map_append]
      simp only [ruleCommands, List.map_cons, List.map_nil,
        ruleOf_insertCommand]
      exact (settled.agrees.postrouting.cons _).trans
        (List.perm_append_singleton _ _).symm

theorem add_faithful (settled : Settled daemon) :
    (Harmless daemon (.add data failures) ∧
      Faithful daemon (daemon.handle (.add data failures)) ∧
      Settled (daemon.handle (.add data failures)).daemon) ∨
    (¬ Harmless daemon (.add data failures) ∧
      ¬ Faithful daemon (daemon.handle (.add data failures))) := by
  simp only [Daemon.handle, Harmless]
  by_cases runs : (Fields.ofData data).Runs
  · rw [addIptablesRule_of_two runs.two runs.accept,
      runBoth_insert runs.passable]
    obtain ⟨first, second⟩ := failures
    cases first with
    | true =>
        left
        exact ⟨fun _ => .inl rfl, ⟨settled.agrees, fun _ => ⟨rfl, rfl⟩⟩,
          settled⟩
    | false =>
        cases second with
        | true =>
            right
            constructor
            · intro harmless
              simpa using harmless runs
            · intro faithful
              have same := congrArg Chains.prerouting (faithful.unchanged rfl).1
              exact absurd (congrArg List.length same) (by simp)
        | false =>
            left
            have added := settled.added runs.passable (ruleMark daemon.index 1)
            exact ⟨fun _ => .inr (by simp),
              ⟨added.agrees, by simp [Answer.isError]⟩, added⟩
  · have same := (@addIptablesRule_of_not_runs daemon data failures runs).2
    left
    refine ⟨fun started => absurd started runs, ⟨?_, ?_⟩, ?_⟩
    · rw [same]
      exact settled.agrees
    · intro _
      rw [same]
      exact ⟨rfl, rfl⟩
    · rw [same]
      exact settled

theorem delIptablesRule_of_unknown
    (unknown : ∀ index : ℕ, Daemon.requestedIndex data = some (index : ℤ) →
      ¬ daemon.rules.contains index) :
    (daemon.delIptablesRule data failures).daemon = daemon := by
  simp only [Daemon.delIptablesRule]
  cases requested : Daemon.requestedIndex data with
  | none => rfl
  | some number =>
      cases number with
      | ofNat index =>
          have missing := unknown index requested
          rw [Dict.contains, Option.not_isSome_iff_eq_none] at missing
          simp only [Int.toNat?, Option.bind_some, missing]
      | negSucc => rfl

theorem delIptablesRule_of_known {index : ℕ} {fields : Fields} {mark : ℕ}
    (requested : Daemon.requestedIndex data = some (index : ℤ))
    (known : daemon.rules.get? index = some (ruleCommands fields mark)) :
    daemon.delIptablesRule data failures =
      (let commands := (deleteCommand "PREROUTING" (divertRule fields),
        deleteCommand "POSTROUTING" (markRule fields mark))
      let edited := { daemon with rules := daemon.rules.set index commands }
      edited.runBoth commands failures .errorDeleting fun chains =>
        ⟨.deleted, { daemon with
          chains := chains
          rules := daemon.rules.del index
          sent := daemon.sent ++ [index] }, [commands.1, commands.2]⟩) := by
  have natural : (index : ℤ).toNat? = some index := rfl
  simp only [ruleCommands] at known
  simp only [Daemon.delIptablesRule, requested, natural, Option.bind_some,
    known, deleteForm_insertCommand]

theorem runBoth_delete {edited : Daemon} {fields : Fields} {mark : ℕ}
    (passable : (matchOptions fields).all Value.passable)
    (first : divertRule fields ∈ edited.chains.prerouting)
    (second : markRule fields mark ∈ edited.chains.postrouting)
    (onSuccess : Chains → Response) :
    let commands := (deleteCommand "PREROUTING" (divertRule fields),
      deleteCommand "POSTROUTING" (markRule fields mark))
    let response := edited.runBoth commands failures .errorDeleting onSuccess
    if failures.first ∨ failures.second then
      response.answer = .errorDeleting ∧ response.daemon.rules = edited.rules
    else response =
      onSuccess ⟨edited.chains.prerouting.erase (divertRule fields),
      edited.chains.postrouting.erase (markRule fields mark)⟩ := by
  have firstPassable : (deleteCommand "PREROUTING" (divertRule fields)).all
      Value.passable := by
    rw [passable_deleteCommand, passable_insertCommand, passable_divertRule,
      passable]
    decide
  have secondPassable :
      (deleteCommand "POSTROUTING" (markRule fields mark)).all
        Value.passable := by
    rw [passable_deleteCommand, passable_insertCommand, passable_markRule,
      passable]
    decide
  have remains : markRule fields mark ∈ ({ edited.chains with
      prerouting := edited.chains.prerouting.erase (divertRule fields) } :
        Chains).postrouting := second
  obtain ⟨firstFails, secondFails⟩ := failures
  simp only [Daemon.runBoth]
  cases firstFails with
  | true => simp [runCommand_failed _ firstPassable]
  | false =>
      rw [runCommand_done _ firstPassable (iptables_delete_prerouting first)]
      simp only
      cases secondFails with
      | true => simp [runCommand_failed _ secondPassable]
      | false =>
          rw [runCommand_done _ secondPassable
            (iptables_delete_postrouting remains)]
          simp

variable (settled : Settled daemon)
include settled

theorem Settled.deleted {index : ℕ} {fields : Fields}
    {mark : ℕ} (known : daemon.rules.get? index =
      some (ruleCommands fields mark)) :
    Settled { daemon with
      chains := ⟨daemon.chains.prerouting.erase (divertRule fields),
        daemon.chains.postrouting.erase (markRule fields mark)⟩
      rules := daemon.rules.del index
      sent := daemon.sent ++ [index] } := by
  have split := Dict.perm_cons_del settled.unique known
  constructor
  · exact Dict.nodup_keys_del settled.unique index
  · intro other member
    exact settled.below other ((Dict.mem_keys_del _ _ _).mp member).2
  · intro entry member
    exact settled.entries entry
      (split.mem_iff.mpr (List.mem_cons_of_mem _ member))
  · constructor
    · have together := settled.agrees.prerouting.trans (split.map _)
      simp only [ruleCommands, List.map_cons, ruleOf_insertCommand] at together
      simpa using together.erase (divertRule fields)
    · have together := settled.agrees.postrouting.trans (split.map _)
      simp only [ruleCommands, List.map_cons, ruleOf_insertCommand] at together
      simpa using together.erase (markRule fields mark)

theorem Settled.rules_mem {index : ℕ} {fields : Fields} {mark : ℕ}
    (known : daemon.rules.get? index = some (ruleCommands fields mark)) :
    divertRule fields ∈ daemon.chains.prerouting ∧
      markRule fields mark ∈ daemon.chains.postrouting := by
  have member := Dict.mem_of_get? known
  constructor
  · rw [settled.agrees.prerouting.mem_iff, List.mem_map]
    exact ⟨_, member, ruleOf_insertCommand _ _⟩
  · rw [settled.agrees.postrouting.mem_iff, List.mem_map]
    exact ⟨_, member, ruleOf_insertCommand _ _⟩

theorem delete_faithful :
    (Harmless daemon (.delete data failures) ∧
      Faithful daemon (daemon.handle (.delete data failures)) ∧
      Settled (daemon.handle (.delete data failures)).daemon) ∨
    (¬ Harmless daemon (.delete data failures) ∧
      ¬ Faithful daemon (daemon.handle (.delete data failures))) := by
  simp only [Daemon.handle]
  by_cases requests : ∃ index : ℕ,
      Daemon.requestedIndex data = some (index : ℤ) ∧
        daemon.rules.contains index
  · obtain ⟨index, requested, contains⟩ := requests
    obtain ⟨commands, known⟩ := Option.isSome_iff_exists.mp contains
    obtain ⟨fields, mark, same, passable⟩ :=
      settled.entries _ (Dict.mem_of_get? known)
    simp only at same
    subst same
    have harmless_iff : Harmless daemon (.delete data failures) ↔
        ¬ (failures.first ∨ failures.second) := by
      rw [not_or]
      constructor
      · exact fun harmless => harmless index requested contains
      · intro succeed other isOther _
        exact succeed
    obtain ⟨first, second⟩ := settled.rules_mem known
    rw [delIptablesRule_of_known requested known, harmless_iff]
    have result := @runBoth_delete failures { daemon with
      rules := daemon.rules.set index
        (deleteCommand "PREROUTING" (divertRule fields),
          deleteCommand "POSTROUTING" (markRule fields mark)) } fields mark
      passable first second
    by_cases fail : failures.first ∨ failures.second
    · right
      refine ⟨not_not_intro fail, fun faithful => ?_⟩
      simp only [fail, if_true] at result
      obtain ⟨answer, rules⟩ := result _
      have same := (faithful.unchanged (by rw [answer]; rfl)).2
      rw [rules] at same
      have stored := congrArg (·.get? index) same
      simp only [Dict.get?_set_self, known, ruleCommands] at stored
      exact deleteCommand_ne_insertCommand _ _
        (congrArg Prod.fst (Option.some.inj stored))
    · left
      simp only [fail, if_false] at result
      have deleted := settled.deleted known
      refine ⟨fail, ?_, ?_⟩
      · simp only [result]
        exact ⟨deleted.agrees, by simp [Answer.isError]⟩
      · simp only [result]
        exact deleted
  · have same := @delIptablesRule_of_unknown daemon data failures
      fun index requested contains => requests ⟨index, requested, contains⟩
    left
    refine ⟨?_, ⟨?_, ?_⟩, ?_⟩
    · exact fun index requested contains =>
        absurd ⟨index, requested, contains⟩ requests
    · rw [same]
      exact settled.agrees
    · intro _
      rw [same]
      exact ⟨rfl, rfl⟩
    · rw [same]
      exact settled

theorem faithful_iff_harmless (call : Call) :
    (Harmless daemon call ∧ Faithful daemon (daemon.handle call) ∧
      Settled (daemon.handle call).daemon) ∨
    (¬ Harmless daemon call ∧ ¬ Faithful daemon (daemon.handle call)) := by
  cases call with
  | add => exact add_faithful settled
  | delete => exact delete_faithful settled

theorem Settled.consistent_iff (history : List Call) :
    Consistent daemon history ↔ Undisturbed daemon history := by
  induction history generalizing daemon with
  | nil => exact Iff.rfl
  | cons call calls next =>
      simp only [Consistent, Undisturbed]
      obtain ⟨harmless, faithful, after⟩ | ⟨harmful, unfaithful⟩ :=
        faithful_iff_harmless settled call
      · simp [harmless, faithful, next after]
      · simp [harmful, unfaithful]

end Requests

/-- Every request of a history is faithful if and only if no run of `iptables`
fails but the first one of an addition. -/
theorem consistent_iff_undisturbed (history : List Call) :
    Consistent .initial history ↔ Undisturbed .initial history :=
  Settled.initial.consistent_iff history

def acceptAddress : Dict Text Value :=
  [("dst_ip".toList, .lit "10.10.0.10"), ("action".toList, .lit "ACCEPT")]

theorem not_consistent_halfAdded :
    ¬ ∀ history : List Call, Consistent .initial history := by
  intro claimed
  have faithful := (claimed [.add acceptAddress ⟨false, true⟩]).1
  have two : checkDataValidity (Fields.ofData acceptAddress) = some 2 := by
    decide
  have passable : (matchOptions (Fields.ofData acceptAddress)).all
      Value.passable := by decide
  have agrees := faithful.agrees.prerouting.length_eq
  rw [Daemon.handle, addIptablesRule_of_two two (by decide),
    runBoth_insert passable] at agrees
  simp [Daemon.initial] at agrees

end Nvbmc.Firewall
